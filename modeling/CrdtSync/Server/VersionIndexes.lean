import CrdtSync.Server.ClaimRuns
import CrdtSync.Server.Publishing
import CrdtSync.Server.Reload

/-!
# Version indexes

The version indexes of a hub, in memory and on disk, with the ordinal its next capture
takes. Every call leaves them alone or changes one room's index by a capture, a rename or
a removal, and a restart reads them back. Under all of them the ordinals of an index stay
distinct and below the next one, which is what orders captures.
-/

namespace CrdtSync

namespace Server

open Std (ExtTreeMap)

variable {σ : Type}

/-- What orders the versions of a room. -/
structure Indexes (σ : Type) where
  held : RoomId → ExtTreeMap Bytes (Version σ) compare
  stored : RoomId → ExtTreeMap Bytes (Version σ) compare
  ordinal : Nat

/-- The ordinals of an index are distinct and below a bound. -/
structure Apart (bound : Nat) (index : ExtTreeMap Bytes (Version σ) compare) : Prop where
  below : ∀ (name : Bytes) (v : Version σ), index[name]? = some v → v.ordinal < bound
  distinct : ∀ (name other : Bytes) (v w : Version σ), index[name]? = some v →
    index[other]? = some w → v.ordinal = w.ordinal → name = other

namespace Apart

variable {bound : Nat} {index rest : ExtTreeMap Bytes (Version σ) compare} {name : Bytes}
  {v : Version σ}

theorem empty : Apart bound (∅ : ExtTreeMap Bytes (Version σ) compare) where
  below _ _ hHeld := by simp at hHeld
  distinct _ _ _ _ hHeld := by simp at hHeld

theorem mono (h : Apart bound index) {bound' : Nat} (hLe : bound ≤ bound') : Apart bound' index where
  below name v hHeld := (h.below name v hHeld).trans_le hLe
  distinct := h.distinct

theorem of_subset (h : Apart bound index)
    (hSub : ∀ (name : Bytes) (v : Version σ), rest[name]? = some v → index[name]? = some v) :
    Apart bound rest where
  below name v hHeld := h.below name v (hSub name v hHeld)
  distinct name other v w hHeld hOther :=
    h.distinct name other v w (hSub name v hHeld) (hSub other w hOther)

theorem capture (h : Apart bound index) (name : Bytes) (hOrdinal : v.ordinal = bound) :
    Apart (bound + 1) (index.insert name v) where
  below other w hHeld := by
    rw [Lib.getElem?_insert_ite] at hHeld
    split at hHeld
    · obtain rfl := Option.some.inj hHeld
      omega
    · have hBelow := h.below other w hHeld
      omega
  distinct name₁ name₂ v₁ v₂ h₁ h₂ hSame := by
    rw [Lib.getElem?_insert_ite] at h₁ h₂
    split at h₁ <;> split at h₂
    · next hName₁ hName₂ => rw [hName₁, hName₂]
    · obtain rfl := Option.some.inj h₁
      have hBelow := h.below name₂ v₂ h₂
      omega
    · obtain rfl := Option.some.inj h₂
      have hBelow := h.below name₁ v₁ h₁
      omega
    · exact h.distinct name₁ name₂ v₁ v₂ h₁ h₂ hSame

theorem rename (h : Apart bound index) {source : Bytes} (target : Bytes)
    (hHeld : index[source]? = some v) :
    Apart bound ((index.erase source).insert target { v with origin := none }) := by
  have hOrdinal := h.below source v hHeld
  have hOthers : ∀ (other : Bytes) (w : Version σ), (index.erase source)[other]? = some w →
      index[other]? = some w ∧ w.ordinal ≠ v.ordinal := by
    intro other w hOther
    rw [Lib.getElem?_erase_ite] at hOther
    split at hOther
    · cases hOther
    · next hNe => exact ⟨hOther, fun hSame => hNe (h.distinct other source w v hOther hHeld hSame)⟩
  constructor
  · intro other w hOther
    rw [Lib.getElem?_insert_ite] at hOther
    split at hOther
    · obtain rfl := Option.some.inj hOther
      exact hOrdinal
    · exact h.below other w (hOthers other w hOther).1
  · intro name₁ name₂ v₁ v₂ h₁ h₂ hSame
    rw [Lib.getElem?_insert_ite] at h₁ h₂
    split at h₁ <;> split at h₂
    · next hName₁ hName₂ => rw [hName₁, hName₂]
    · obtain rfl := Option.some.inj h₁
      exact absurd hSame.symm (hOthers name₂ v₂ h₂).2
    · obtain rfl := Option.some.inj h₂
      exact absurd hSame (hOthers name₁ v₁ h₁).2
    · exact h.distinct name₁ name₂ v₁ v₂ (hOthers name₁ v₁ h₁).1 (hOthers name₂ v₂ h₂).1 hSame

end Apart

namespace Indexes

variable {i i' : Indexes σ} {room : RoomId} {index : ExtTreeMap Bytes (Version σ) compare}

def put (i : Indexes σ) (room : RoomId) (index : ExtTreeMap Bytes (Version σ) compare) :
    Indexes σ :=
  ⟨Function.update i.held room index, Function.update i.stored room index, i.ordinal⟩

/-- A write of a room's index lands, is refused, or is refused after its file was renamed
into place. A refused write is rolled back in memory. -/
inductive Writes (i : Indexes σ) (room : RoomId)
    (index : ExtTreeMap Bytes (Version σ) compare) : Indexes σ → Prop
  | landed : Writes i room index (i.put room index)
  | refused : Writes i room index i
  | unsynced : Writes i room index { i with stored := Function.update i.stored room index }

/-- What an operation or a restart makes of the indexes. -/
inductive Step (i : Indexes σ) : Indexes σ → Prop
  | same : Step i i
  | capture {room : RoomId} {name : Bytes} {v : Version σ} {i' : Indexes σ}
      (hOrdinal : v.ordinal = i.ordinal)
      (hWrites : Writes { i with ordinal := i.ordinal + 1 } room ((i.held room).insert name v) i') :
      Step i i'
  | rename {room : RoomId} {source target : Bytes} {v : Version σ} {i' : Indexes σ}
      (hHeld : (i.held room)[source]? = some v)
      (hWrites : i.Writes room
        (((i.held room).erase source).insert target { v with origin := none }) i') : Step i i'
  | remove {room : RoomId} {index : ExtTreeMap Bytes (Version σ) compare} {i' : Indexes σ}
      (hSub : ∀ (name : Bytes) (v : Version σ), index[name]? = some v →
        (i.held room)[name]? = some v)
      (hWrites : i.Writes room index i') : Step i i'
  | reload {i' : Indexes σ} (hHeld : i'.held = i.stored) (hStored : i'.stored = i.stored)
      (hOrdinal : ∀ (room : RoomId) (name : Bytes) (v : Version σ),
        (i.stored room)[name]? = some v → v.ordinal < i'.ordinal) : Step i i'

theorem Step.of_eq (h : i' = i) : i.Step i' := by
  rw [h]
  exact .same

/-- The ordinals of every index are distinct and below the next. -/
structure Ordered (i : Indexes σ) : Prop where
  held : ∀ room, Apart i.ordinal (i.held room)
  stored : ∀ room, Apart i.ordinal (i.stored room)

theorem Writes.ordered (hWrites : i.Writes room index i') (h : i.Ordered)
    (hIndex : Apart i.ordinal index) : i'.Ordered := by
  have hUpdate : ∀ indexes : RoomId → ExtTreeMap Bytes (Version σ) compare,
      (∀ other, Apart i.ordinal (indexes other)) →
        ∀ other, Apart i.ordinal (Function.update indexes room index other) := by
    intro indexes hAll other
    by_cases hOther : other = room
    · subst hOther
      rwa [Function.update_self]
    · rw [Function.update_of_ne hOther]
      exact hAll other
  cases hWrites with
  | landed => exact ⟨hUpdate i.held h.held, hUpdate i.stored h.stored⟩
  | refused => exact h
  | unsynced => exact ⟨h.held, hUpdate i.stored h.stored⟩

theorem Step.ordered (hStep : i.Step i') (h : i.Ordered) : i'.Ordered := by
  cases hStep with
  | same => exact h
  | capture hOrdinal hWrites =>
    have hNext : ({ i with ordinal := i.ordinal + 1 } : Indexes σ).Ordered :=
      ⟨fun room => (h.held room).mono (Nat.le_succ _), fun room => (h.stored room).mono (Nat.le_succ _)⟩
    exact hWrites.ordered hNext ((h.held _).capture _ hOrdinal)
  | rename hHeld hWrites => exact hWrites.ordered h ((h.held _).rename _ hHeld)
  | remove hSub hWrites => exact hWrites.ordered h ((h.held _).of_subset hSub)
  | reload hHeld hStored hOrdinal =>
    have hAbove : ∀ room, Apart i'.ordinal (i.stored room) := fun room =>
      ⟨fun name v => hOrdinal room name v, (h.stored room).distinct⟩
    constructor
    · intro room
      rw [hHeld]
      exact hAbove room
    · intro room
      rw [hStored]
      exact hAbove room

/-- The version stands in the room, in memory or on disk. -/
def Holds (i : Indexes σ) (room : RoomId) (v : Version σ) : Prop :=
  ∃ name : Bytes, (i.held room)[name]? = some v ∨ (i.stored room)[name]? = some v

theorem Writes.holds (hWrites : i.Writes room index i') {other : RoomId} {v : Version σ}
    (hHolds : i'.Holds other v) :
    i.Holds other v ∨ other = room ∧ ∃ name : Bytes, index[name]? = some v := by
  obtain ⟨name, hHolds⟩ := hHolds
  have hUpdate : ∀ indexes : RoomId → ExtTreeMap Bytes (Version σ) compare,
      (Function.update indexes room index other)[name]? = some v →
        (indexes other)[name]? = some v ∨ other = room ∧ ∃ name : Bytes, index[name]? = some v := by
    intro indexes hHeld
    by_cases hOther : other = room
    · subst hOther
      rw [Function.update_self] at hHeld
      exact .inr ⟨rfl, name, hHeld⟩
    · rw [Function.update_of_ne hOther] at hHeld
      exact .inl hHeld
  cases hWrites with
  | landed =>
    obtain hHeld | hStored := hHolds
    · exact (hUpdate i.held hHeld).imp_left fun hHeld => ⟨name, .inl hHeld⟩
    · exact (hUpdate i.stored hStored).imp_left fun hStored => ⟨name, .inr hStored⟩
  | refused => exact .inl ⟨name, hHolds⟩
  | unsynced =>
    obtain hHeld | hStored := hHolds
    · exact .inl ⟨name, .inl hHeld⟩
    · exact (hUpdate i.stored hStored).imp_left fun hStored => ⟨name, .inr hStored⟩

theorem Step.entering (hStep : i.Step i') {room : RoomId} {v : Version σ} (hHolds : i'.Holds room v)
    (hOrigin : v.origin ≠ none) : i.Holds room v ∨ v.ordinal = i.ordinal := by
  cases hStep with
  | same => exact .inl hHolds
  | capture hOrdinal hWrites =>
    obtain hBefore | ⟨rfl, name, hEntry⟩ := hWrites.holds hHolds
    · exact .inl hBefore
    · rw [Lib.getElem?_insert_ite] at hEntry
      split at hEntry
      · obtain rfl := Option.some.inj hEntry
        exact .inr hOrdinal
      · exact .inl ⟨name, .inl hEntry⟩
  | rename hHeld hWrites =>
    obtain hBefore | ⟨rfl, name, hEntry⟩ := hWrites.holds hHolds
    · exact .inl hBefore
    · rw [Lib.getElem?_insert_ite] at hEntry
      split at hEntry
      · obtain rfl := Option.some.inj hEntry
        exact absurd rfl hOrigin
      · rw [Lib.getElem?_erase_ite] at hEntry
        split at hEntry
        · cases hEntry
        · exact .inl ⟨name, .inl hEntry⟩
  | remove hSub hWrites =>
    obtain hBefore | ⟨rfl, name, hEntry⟩ := hWrites.holds hHolds
    · exact .inl hBefore
    · exact .inl ⟨name, .inl (hSub name v hEntry)⟩
  | reload hHeld hStored hOrdinal =>
    obtain ⟨name, hHolds⟩ := hHolds
    rw [hHeld, hStored, or_self] at hHolds
    exact .inl ⟨name, .inr hHolds⟩

end Indexes

namespace StoredHub

variable {h h' : StoredHub σ} {faults : Faults} {room : RoomId}

def indexes (h : StoredHub σ) : Indexes σ :=
  ⟨h.versions, fun room => (h.roomLog room).versions, h.versionOrdinal⟩

section Frames

theorem indexes_write {f : RoomLog σ → RoomLog σ} (hKeeps : ∀ l, (f l).versions = l.versions) :
    (h.write room f).indexes = h.indexes := by
  have hStored : ∀ other, ((h.write room f).roomLog other).versions = (h.roomLog other).versions := by
    intro other
    rw [roomLog_write]
    split
    next hOther => rw [hKeeps, hOther]
    next => rfl
  simp only [indexes, hStored]
  rfl

theorem indexes_attempt {c : StoreCall} {f : RoomLog σ → RoomLog σ}
    (hKeeps : ∀ l, (f l).versions = l.versions) :
    (h.attempt faults c room f).indexes = h.indexes := by
  unfold attempt
  split
  · rfl
  · exact indexes_write hKeeps

theorem indexes_of_call {c : StoreCall} {f : RoomLog σ → RoomLog σ}
    (hCall : h.call faults c room f = .ok h') (hKeeps : ∀ l, (f l).versions = l.versions) :
    h'.indexes = h.indexes := by
  obtain ⟨-, hEq⟩ | ⟨-, hEq⟩ := h.call_cases faults c room f
  · rw [hEq] at hCall
    cases hCall
  · rw [hEq] at hCall
    cases hCall
    exact indexes_write hKeeps

theorem versions_writeMeta (l : RoomLog σ) (m : RoomMeta) : (l.writeMeta m).versions = l.versions := by
  unfold RoomLog.writeMeta
  split <;> rfl

theorem indexes_persistMeta (h : StoredHub σ) (faults : Faults) (room : RoomId) :
    (h.persistMeta faults room).indexes = h.indexes :=
  indexes_attempt fun l => versions_writeMeta l _

theorem indexes_bindGoverning (h : StoredHub σ) (faults : Faults) (room : RoomId) (app : Bytes)
    (version : Nat) : (h.bindGoverning faults room app version).indexes = h.indexes := by
  unfold bindGoverning
  split
  · rfl
  · exact indexes_persistMeta ..

theorem indexes_raiseMaxOpVersion (h : StoredHub σ) (faults : Faults) (room : RoomId)
    (version : Option Nat) : (h.raiseMaxOpVersion faults room version).indexes = h.indexes := by
  unfold raiseMaxOpVersion
  split
  · rfl
  · split
    · exact indexes_persistMeta ..
    · rfl

theorem indexes_ensureCreator (h : StoredHub σ) (faults : Faults) (room : RoomId)
    (actor : Bytes) : (h.ensureCreator faults room actor).2.indexes = h.indexes := by
  unfold ensureCreator
  split
  · rfl
  · split
    · rfl
    · split
      · exact indexes_persistMeta ..
      · rfl

theorem indexes_claimClient (h : StoredHub σ) (faults : Faults) (room : RoomId)
    (client : ClientId) (actor : Bytes) :
    (h.claimClient faults room client actor).indexes = h.indexes := by
  unfold claimClient
  split
  · rfl
  · split
    · rfl
    · split
      · rfl
      · exact indexes_persistMeta ..

theorem indexes_adoptClaims (h : StoredHub σ) (room : RoomId)
    (claims : ExtTreeMap ClientId Bytes compare) :
    (h.adoptClaims room claims).indexes = h.indexes := by
  unfold adoptClaims
  split <;> rfl

theorem indexes_compact (h : StoredHub σ) (faults : Faults) (room : RoomId) :
    (h.compact faults room).2.indexes = h.indexes := by
  unfold compact
  split
  · rfl
  · dsimp only
    split
    · rfl
    · next hCall =>
      have hSame := indexes_of_call hCall fun _ => rfl
      exact hSame

theorem indexes_installRoomState (h : StoredHub σ) (faults : Faults) (room : RoomId)
    (state : Option (DocState σ)) (floor : Option Nat) (creator : Option Bytes)
    (history : List StoredOp) :
    (h.installRoomState faults room state floor creator history).2.indexes = h.indexes := by
  unfold installRoomState
  split
  · rfl
  · dsimp only
    split
    · rfl
    · next h₁ hCall =>
      have hSame : h₁.indexes = h.indexes := indexes_of_call hCall fun _ => rfl
      exact (indexes_persistMeta ..).trans hSame

theorem indexes_importRoom (h : StoredHub σ) (faults : Faults) (room : RoomId)
    (state : Option (DocState σ)) (history : List StoredOp) :
    (h.importRoom faults room state history).2.indexes = h.indexes := by
  have hInstall := h.indexes_installRoomState faults room state none none history
  unfold importRoom
  split
  · rfl
  · split
    · next hEq => rwa [hEq] at hInstall
    · next hEq => rwa [hEq] at hInstall

theorem indexes_cloneRoom (h : StoredHub σ) (faults : Faults) (source target : RoomId) :
    (h.cloneRoom faults source target).2.indexes = h.indexes := by
  unfold cloneRoom
  split
  · rfl
  · split
    · rfl
    · next r _ =>
      have hInstall := h.indexes_installRoomState faults target (some r.doc.toDocState) none
        r.creator r.history
      dsimp only
      split
      · next hEq => rwa [hEq] at hInstall
      · next h₁ hEq =>
        rw [hEq] at hInstall
        rw [indexes_persistMeta, indexes_adoptClaims, indexes_raiseMaxOpVersion]
        split
        · exact (indexes_bindGoverning ..).trans hInstall
        · split
          · exact (indexes_persistMeta ..).trans hInstall
          · exact hInstall

theorem indexes_setActiveBranch (h : StoredHub σ) (faults : Faults) (room : RoomId)
    (branch : Bytes) : (h.setActiveBranch faults room branch).2.indexes = h.indexes := by
  unfold setActiveBranch
  split
  · rfl
  · split
    · rfl
    · next h₁ hCall =>
      have hSame : h₁.indexes = h.indexes := indexes_of_call hCall fun _ => rfl
      exact hSame

theorem indexes_mutateBranches (h : StoredHub σ) (faults : Faults) (room : RoomId)
    (change : BranchRegistry → Option BranchRegistry) :
    (h.mutateBranches faults room change).2.indexes = h.indexes := by
  obtain ⟨-, hEq⟩ | ⟨registry, -, ⟨-, hEq⟩ | ⟨-, hEq⟩⟩ := h.mutateBranches_cases faults room change
  · rw [hEq]
  · rw [hEq]
  · rw [hEq]
    exact indexes_write fun _ => rfl

theorem indexes_deleteBranch (h : StoredHub σ) (faults : Faults) (room : RoomId) (name : Bytes) :
    (h.deleteBranch faults room name).2.indexes = h.indexes := by
  have hDelete := h.indexes_mutateBranches faults room (·.delete name)
  unfold deleteBranch
  split
  · next hEq => rwa [hEq] at hDelete
  · next hEq => rwa [hEq] at hDelete
  · next h₁ hEq =>
    rw [hEq] at hDelete
    dsimp only
    split
    · exact hDelete
    · next h₂ hLog =>
      have hLog : h₂.indexes = h.indexes := (indexes_of_call hLog fun _ => rfl).trans hDelete
      split
      · exact hLog
      · next h₃ hBase =>
        have hBase : h₃.indexes = h.indexes := (indexes_of_call hBase fun _ => rfl).trans hLog
        split
        · have hActive := h₃.indexes_setActiveBranch faults room MAIN_BRANCH
          split
          · next hEq =>
            rw [hEq] at hActive
            exact hActive.trans hBase
          · next hEq =>
            rw [hEq] at hActive
            exact hActive.trans hBase
        · exact hBase

theorem indexes_forkBranchFromVersion (h : StoredHub σ) (faults : Faults) (room : RoomId)
    (new version : Bytes) :
    (h.forkBranchFromVersion faults room new version).2.indexes = h.indexes := by
  unfold forkBranchFromVersion
  split
  · rfl
  · next v _ =>
    dsimp only
    split
    · rfl
    · split
      · rfl
      · next h₁ hBase =>
        have hBase : h₁.indexes = h.indexes := indexes_of_call hBase fun _ => rfl
        have hFork := (h₁.setBase room new (some ⟨v.state, v.history⟩)).indexes_mutateBranches
          faults room (·.fork new MAIN_BRANCH v.seq)
        split
        · next hEq =>
          rw [hEq] at hFork
          exact hFork.trans hBase
        · next result h₂ _ hEq =>
          rw [hEq] at hFork
          have hBack : (h₂.setBase room new none).indexes = h.indexes := hFork.trans hBase
          refine (indexes_attempt ?_).trans hBack
          exact fun _ => rfl

theorem indexes_repointPublished (h : StoredHub σ) (faults : Faults) (room : RoomId)
    (published : Bytes) (seq : Nat) (base : Base σ) :
    (h.repointPublished faults room published seq base).2.indexes = h.indexes := by
  unfold repointPublished
  split
  · rfl
  · next h₁ hBase =>
    have hBase : h₁.indexes = h.indexes := indexes_of_call hBase fun _ => rfl
    dsimp only
    have hPoint := (h₁.setBase room published (some base)).indexes_mutateBranches faults room
      (·.pointPublished published seq)
    split
    · next h₂ hEq =>
      rw [hEq] at hPoint
      have hTail : (h₂.setTail room published .empty).indexes = h.indexes := hPoint.trans hBase
      refine (indexes_attempt ?_).trans hTail
      exact fun _ => rfl
    · next result h₂ _ hEq =>
      rw [hEq] at hPoint
      have hBack : ∀ previous, (h₂.setBase room published previous).indexes = h.indexes :=
        fun _ => hPoint.trans hBase
      split
      · refine (indexes_attempt ?_).trans (hBack _)
        exact fun _ => rfl
      · refine (indexes_attempt ?_).trans (hBack _)
        exact fun _ => rfl

variable [Folds σ]

theorem indexes_ingestRecords (h : StoredHub σ) (faults : Faults) (room : RoomId)
    (recs : List StoredOp) : (h.ingestRecords faults room recs).2.indexes = h.indexes := by
  unfold ingestRecords
  dsimp only
  generalize (h.rooms room).getD (LoggedRoom.new h.server h.content) = r
  generalize freshRecords r.seen ∅ recs = fresh
  split
  · rfl
  · next h₁ hAppend =>
    have hAppended : h₁.indexes = h.indexes := by
      unfold appendRecords at hAppend
      split at hAppend
      · cases hAppend
        rfl
      · exact (indexes_of_call hAppend fun _ => rfl).trans rfl
    generalize hLogged : (if (fresh.foldl LoggedRoom.commit r).maxOpVersion ≠ r.maxOpVersion then
      (h₁.setRoom room (fresh.foldl LoggedRoom.commit r)).persistMeta faults room
      else h₁.setRoom room (fresh.foldl LoggedRoom.commit r)) = h₂
    have hSame : h₂.indexes = h.indexes := by
      rw [← hLogged]
      split
      · exact (indexes_persistMeta ..).trans hAppended
      · exact hAppended
    split
    · have hCompact := h₂.indexes_compact faults room
      split
      · next hEq =>
        rw [hEq] at hCompact
        exact hCompact.trans hSame
      · next hEq =>
        rw [hEq] at hCompact
        exact hCompact.trans hSame
    · exact hSame

theorem indexes_ingestBranch (h : StoredHub σ) (faults : Faults) (room : RoomId) (branch : Bytes)
    (ops : List Op) (version : Option Nat) :
    (h.ingestBranch faults room branch ops version).2.indexes = h.indexes := by
  unfold ingestBranch
  split
  · exact indexes_ingestRecords ..
  · split
    · rfl
    · next b _ =>
      dsimp only
      generalize freshRecords (h.branchLogs room branch).seen ∅ _ = fresh
      split
      · rfl
      · next h₁ hAppend =>
        have hAppended : h₁.indexes = h.indexes := by
          unfold appendBranch at hAppend
          split at hAppend
          · cases hAppend
            rfl
          · exact indexes_of_call hAppend fun _ => rfl
        generalize fresh.foldl BranchLog.push (h.branchLogs room branch) = log
        have hHead := (h₁.setTail room branch log).indexes_mutateBranches faults room
          (·.setHead branch (b.forkPoint + log.ops.length))
        split
        · next hEq =>
          rw [hEq] at hHead
          exact hHead.trans hAppended
        · next hEq =>
          rw [hEq] at hHead
          exact hHead.trans hAppended

end Frames

section Rewrites

/-- What an operation on one index does for any store failures. It changes nothing, or it
writes the index once: refused, it answers the error and its index stands. -/
def Rewrites {α : Type} (h : StoredHub σ) (room : RoomId) (op : Faults → Outcome σ α) : Prop :=
  (∃ a, ∀ faults, op faults = (.ok a, h)) ∨
    ∃ (i : Indexes σ) (index : ExtTreeMap Bytes (Version σ) compare), i.held = h.versions ∧
      (∀ i', i.Writes room index i' → h.indexes.Step i') ∧
        ∀ faults,
          faults .writeVersions = true ∧
              (∃ h', op faults = (.error .store, h') ∧ h'.indexes = i) ∨
            faults .writeVersions = false ∧
              ∃ a h', op faults = (.ok a, h') ∧ h'.indexes = i.put room index

theorem persistVersions_cases (h : StoredHub σ) (faults : Faults) (room : RoomId)
    (index : ExtTreeMap Bytes (Version σ) compare) :
    faults .writeVersions = true ∧
        (h.setVersions room index).persistVersions faults room = .error .store ∨
      faults .writeVersions = false ∧
        ∃ h', (h.setVersions room index).persistVersions faults room = .ok h' ∧
          h'.indexes = h.indexes.put room index := by
  obtain ⟨hFault, hCall⟩ | ⟨hFault, hCall⟩ := (h.setVersions room index).call_cases faults
    .writeVersions room fun l => { l with versions := (h.setVersions room index).versions room }
  · exact .inl ⟨hFault, hCall⟩
  · refine .inr ⟨hFault, _, hCall, ?_⟩
    have hIndex : (h.setVersions room index).versions room = index := Function.update_self ..
    have hStored : ∀ other, (((h.setVersions room index).write room fun l =>
        { l with versions := (h.setVersions room index).versions room }).roomLog other).versions =
          Function.update (fun other => (h.roomLog other).versions) room index other := by
      intro other
      rw [roomLog_write, hIndex]
      by_cases hOther : other = room
      · rw [if_pos hOther, hOther, Function.update_self]
      · rw [if_neg hOther, Function.update_of_ne hOther]
        rfl
    simp only [indexes, hStored, Indexes.put]
    rfl

theorem rewrites_createVersionWith (h : StoredHub σ) (room : RoomId) (name : Bytes)
    (origin : Option Bytes) (snapshot : Option (Snapshot σ)) :
    h.Rewrites room fun faults => h.createVersionWith faults room name origin snapshot := by
  unfold Rewrites createVersionWith
  cases snapshot.or ((h.rooms room).map fun r => ⟨r.head, r.doc.toDocState, r.history⟩) with
  | none => exact .inl ⟨false, fun _ => rfl⟩
  | some s =>
    dsimp only
    by_cases hTaken : name ∈ h.versions room
    · exact .inl ⟨false, fun _ => by rw [if_pos hTaken]⟩
    · obtain ⟨v, hVersion⟩ : ∃ v : Version σ,
        v = ⟨s.baseSeq, origin, h.versionOrdinal, s.state, s.history⟩ := ⟨_, rfl⟩
      have hOrdinal : v.ordinal = h.indexes.ordinal := by
        rw [hVersion]
        rfl
      rw [← hVersion]
      refine .inr ⟨{ h.indexes with ordinal := h.versionOrdinal + 1 },
        (h.versions room).insert name v, rfl, fun i' hWrites => .capture hOrdinal hWrites,
        fun faults => ?_⟩
      rw [if_neg hTaken]
      obtain ⟨hFault, hCall⟩ | ⟨hFault, h', hCall, hPut⟩ := ({ h with
        versionOrdinal := h.versionOrdinal + 1 } : StoredHub σ).persistVersions_cases faults room
          ((h.versions room).insert name v)
      · exact .inl ⟨hFault, _, by rw [hCall], rfl⟩
      · exact .inr ⟨hFault, true, h', by rw [hCall], hPut⟩

theorem rewrites_retainByOrigin (h : StoredHub σ) (room : RoomId) (origin : Bytes) (keep : Nat) :
    h.Rewrites room fun faults => h.retainByOrigin faults room origin keep := by
  unfold Rewrites retainByOrigin
  dsimp only
  generalize hNames : doomed (h.versions room) origin keep = names
  by_cases hNone : names.isEmpty
  · exact .inl ⟨(), fun _ => by rw [if_pos hNone]⟩
  · refine .inr ⟨h.indexes, names.foldl ExtTreeMap.erase (h.versions room), rfl,
      fun i' hWrites => .remove ?_ hWrites, fun faults => ?_⟩
    · intro name v hKept
      rw [getElem?_foldl_erase] at hKept
      split at hKept
      · cases hKept
      · exact hKept
    · rw [if_neg hNone]
      obtain ⟨hFault, hCall⟩ | ⟨hFault, h', hCall, hPut⟩ := h.persistVersions_cases faults room
        (names.foldl ExtTreeMap.erase (h.versions room))
      · exact .inl ⟨hFault, h, by rw [hCall], rfl⟩
      · exact .inr ⟨hFault, (), h', by rw [hCall], hPut⟩

theorem rewrites_renameVersion (h : StoredHub σ) (room : RoomId) (source target : Bytes) :
    h.Rewrites room fun faults => h.renameVersion faults room source target := by
  unfold Rewrites renameVersion
  dsimp only
  cases hHeld : (h.versions room)[source]? with
  | none => exact .inl ⟨false, fun _ => rfl⟩
  | some v =>
    dsimp only
    by_cases hTaken : target ∈ h.versions room
    · exact .inl ⟨false, fun _ => by rw [if_pos hTaken]⟩
    · refine .inr ⟨h.indexes, ((h.versions room).erase source).insert target { v with origin := none },
        rfl, fun i' hWrites => .rename hHeld hWrites, fun faults => ?_⟩
      rw [if_neg hTaken]
      obtain ⟨hFault, hCall⟩ | ⟨hFault, h', hCall, hPut⟩ := h.persistVersions_cases faults room
        (((h.versions room).erase source).insert target { v with origin := none })
      · exact .inl ⟨hFault, h, by rw [hCall], rfl⟩
      · exact .inr ⟨hFault, true, h', by rw [hCall], hPut⟩

theorem rewrites_deleteVersion (h : StoredHub σ) (room : RoomId) (name : Bytes) :
    h.Rewrites room fun faults => h.deleteVersion faults room name := by
  unfold Rewrites deleteVersion
  dsimp only
  by_cases hFree : name ∉ h.versions room
  · exact .inl ⟨false, fun _ => by rw [if_pos hFree]⟩
  · refine .inr ⟨h.indexes, (h.versions room).erase name, rfl,
      fun i' hWrites => .remove ?_ hWrites, fun faults => ?_⟩
    · intro other v hKept
      rw [Lib.getElem?_erase_ite] at hKept
      split at hKept
      · cases hKept
      · exact hKept
    · rw [if_neg hFree]
      obtain ⟨hFault, hCall⟩ | ⟨hFault, h', hCall, hPut⟩ := h.persistVersions_cases faults room
        ((h.versions room).erase name)
      · exact .inl ⟨hFault, h, by rw [hCall], rfl⟩
      · exact .inr ⟨hFault, true, h', by rw [hCall], hPut⟩

variable {α : Type} {op : Faults → Outcome σ α}

theorem Rewrites.step (hOp : h.Rewrites room op) (faults : Faults) :
    h.indexes.Step (op faults).2.indexes := by
  obtain ⟨a, hSame⟩ | ⟨i, index, -, hStep, hCases⟩ := hOp
  · rw [hSame]
    exact .same
  · obtain ⟨-, h', hEq, hIndexes⟩ | ⟨-, a, h', hEq, hIndexes⟩ := hCases faults
    · rw [hEq, hIndexes]
      exact hStep i .refused
    · rw [hEq, hIndexes]
      exact hStep _ .landed

theorem Rewrites.versions_of_error (hOp : h.Rewrites room op) {faults : Faults} {e : IoError}
    (hError : (op faults).1 = .error e) : (op faults).2.versions = h.versions := by
  obtain ⟨a, hSame⟩ | ⟨i, index, hHeld, -, hCases⟩ := hOp
  · rw [hSame]
  · obtain ⟨-, h', hEq, hIndexes⟩ | ⟨-, a, h', hEq, hIndexes⟩ := hCases faults
    · rw [hEq]
      exact (congrArg Indexes.held hIndexes).trans hHeld
    · rw [hEq] at hError
      cases hError

end Rewrites

section Steps

theorem step_restoreAsBranch (h : StoredHub σ) (faults : Faults) (room : RoomId)
    (version new : Bytes) :
    h.indexes.Step (h.restoreAsBranch faults room version new).2.indexes := by
  have hFork := h.indexes_forkBranchFromVersion faults room new version
  unfold restoreAsBranch
  split
  · next hEq =>
    rw [hEq] at hFork
    exact .of_eq hFork
  · next hEq =>
    rw [hEq] at hFork
    exact .of_eq hFork
  · next h₁ hEq =>
    rw [hEq] at hFork
    have hAudit := (h₁.rewrites_createVersionWith room (restoreAudit new (h₁.seq room)) none
      none).step faults
    rw [hFork] at hAudit
    unfold createVersion
    split
    · next hEq => rwa [hEq] at hAudit
    · next h₂ hEq =>
      rw [hEq] at hAudit
      have hActive := h₂.indexes_setActiveBranch faults room new
      split
      · next hEq =>
        rw [hEq] at hActive
        rwa [hActive]
      · next hEq =>
        rw [hEq] at hActive
        rwa [hActive]

variable [Folds σ]

theorem step_publish (h : StoredHub σ) (faults : Faults) (room : RoomId) (published : Bytes) :
    h.indexes.Step (h.publish faults room published).2.indexes := by
  unfold publish
  dsimp only
  split
  · exact .same
  · split
    · next state _ =>
      generalize (h.branch room (h.activeBranch room)).elim (h.seq room) Branch.head = seq
      generalize h.streamHistory room (h.activeBranch room) = history
      have hCapture := (h.rewrites_createVersionWith room
        (publishAudit published (h.activeBranch room) seq) none (some ⟨seq, state, history⟩)).step faults
      split
      · next hEq => rwa [hEq] at hCapture
      · next h₁ hEq =>
        rw [hEq] at hCapture
        have hPoint := h₁.indexes_repointPublished faults room published seq ⟨state, history⟩
        split
        · next hEq =>
          rw [hEq] at hPoint
          rwa [hPoint]
        · next hEq =>
          rw [hEq] at hPoint
          rwa [hPoint]
    · exact .same

theorem step_perform (h : StoredHub σ) (faults : Faults) (call : HubCall σ) :
    h.indexes.Step (h.perform faults call).2.indexes := by
  cases call with
  | ingest room ops version => exact .of_eq (indexes_ingestRecords ..)
  | ingestBranch room branch ops version => exact .of_eq (indexes_ingestBranch ..)
  | compact room => exact .of_eq (indexes_compact ..)
  | setCompactionThreshold threshold => exact .of_eq rfl
  | importRoom room state history => exact .of_eq (indexes_importRoom ..)
  | installSnapshot room state seq creator history =>
    exact .of_eq (indexes_installRoomState ..)
  | cloneRoom source target => exact .of_eq (indexes_cloneRoom ..)
  | createVersion room name => exact (h.rewrites_createVersionWith room name none none).step faults
  | createAutoVersion room name origin =>
    exact (h.rewrites_createVersionWith room name (some origin) none).step faults
  | retainByOrigin room origin keep => exact (h.rewrites_retainByOrigin room origin keep).step faults
  | renameVersion room source target => exact (h.rewrites_renameVersion room source target).step faults
  | deleteVersion room name => exact (h.rewrites_deleteVersion room name).step faults
  | forkBranch room new source position => exact .of_eq (indexes_mutateBranches ..)
  | renameBranch room source target => exact .of_eq (indexes_mutateBranches ..)
  | deleteBranch room name => exact .of_eq (indexes_deleteBranch ..)
  | forkBranchFromVersion room new version =>
    exact .of_eq (indexes_forkBranchFromVersion ..)
  | restoreAsBranch room version new => exact step_restoreAsBranch ..
  | publish room published => exact step_publish ..
  | setActiveBranch room branch => exact .of_eq (indexes_setActiveBranch ..)
  | ensureCreator room actor => exact .of_eq (indexes_ensureCreator ..)
  | claimClient room client actor => exact .of_eq (indexes_claimClient ..)
  | raiseMaxOpVersion room version => exact .of_eq (indexes_raiseMaxOpVersion ..)
  | bindGoverning room app version => exact .of_eq (indexes_bindGoverning ..)
  | persistEpoch room epoch => exact .of_eq (indexes_attempt fun _ => rfl)

end Steps

section Restart

theorem versions_restoreTails (h : StoredHub σ) (room : RoomId)
    (tails : List (Bytes × List StoredOp)) : (h.restoreTails room tails).versions = h.versions := by
  induction tails generalizing h with
  | nil => rfl
  | cons tail tails ih =>
    rw [restoreTails, List.foldl_cons]
    refine (ih _).trans ?_
    split <;> rfl

theorem versions_restoreBases (h : StoredHub σ) (room : RoomId) (bases : List (Bytes × Base σ)) :
    (h.restoreBases room bases).versions = h.versions := by
  induction bases generalizing h with
  | nil => rfl
  | cons base bases ih =>
    rw [restoreBases, List.foldl_cons]
    refine (ih _).trans ?_
    split <;> rfl

theorem versions_restoreActive (h : StoredHub σ) (room : RoomId) (active : Option Bytes) :
    (h.restoreActive room active).versions = h.versions := by
  cases active with
  | none => rfl
  | some branch =>
    rw [restoreActive]
    split <;> rfl

theorem versions_restoreForks (h : StoredHub σ) (room : RoomId) (forks : List Branch) :
    (h.restoreForks room forks).versions = h.versions := by
  rw [restoreForks]
  split <;> rfl

theorem versions_restoreMeta (h : StoredHub σ) (room : RoomId) (m : Option RoomMeta) :
    (h.restoreMeta room m).versions = h.versions := by
  cases m with
  | none => rfl
  | some m =>
    have hGoverned : (if m.governing.isSome then h.setGoverning room m.governing else h).versions =
        h.versions := by split <;> rfl
    unfold restoreMeta
    dsimp only
    split
    · exact hGoverned
    · exact hGoverned

theorem versions_restoreSnapshot (h : StoredHub σ) (room : RoomId) (snapshot : Option (Snapshot σ)) :
    (h.restoreSnapshot room snapshot).versions = h.versions := by
  cases snapshot <;> rfl

variable [Folds σ]

theorem versions_installRoom (h : StoredHub σ) (room other : RoomId) (log : RoomLog σ) :
    (h.installRoom room log).versions other =
      if other = room then
        log.versions.toList.foldl (fun index version => index.insert version.1 version.2)
          (h.versions other)
      else h.versions other := by
  unfold installRoom
  dsimp only
  change (restoreActive _ room log.activeBranch).versions other = _
  rw [versions_restoreActive, versions_restoreBases, versions_restoreTails, versions_restoreForks,
    restoreVersions]
  have hSame : (((h.restoreSnapshot room log.snapshot).replayRecords room log.ops).restoreMeta room
      log.metadata).versions = h.versions :=
    (versions_restoreMeta ..).trans (versions_restoreSnapshot h room log.snapshot)
  rw [hSame]
  by_cases hOther : other = room
  · rw [if_pos hOther, hOther]
    exact Function.update_self ..
  · rw [if_neg hOther]
    exact (Function.update_of_ne hOther ..).trans (congrFun hSame other)

theorem versions_restart (h : StoredHub σ) (room : RoomId) :
    h.restart.versions room = (h.roomLog room).versions := by
  have hKeys : h.load.Pairwise fun a b => a.1 ≠ b.1 := (Lib.pairwise_ne_entries h.files).filter _
  obtain ⟨hIn, hOut⟩ := @Lib.read_foldl (StoredHub σ) (RoomId × RoomLog σ) RoomId
    (ExtTreeMap Bytes (Version σ) compare) _ (fun h room => some (h.versions room))
    (fun h entry => installRoom h entry.1 entry.2) Prod.fst
    (fun entry index => index.map fun index =>
      entry.2.versions.toList.foldl (fun index version => index.insert version.1 version.2) index)
    (fun h entry room => by
      rw [versions_installRoom]
      split
      next hRoom => rw [hRoom, Option.map_some]
      next => rfl) h.load hKeys (new h.server h.content 0)
  have hRead : ∀ log, h.files[room]? = some log → log.isStored = true →
      h.restart.versions room = log.versions := by
    intro log hFile hStored
    have hMem : (room, log) ∈ h.load :=
      List.mem_filter.mpr ⟨Lib.mem_toList_iff.mpr hFile, hStored⟩
    exact Option.some.inj ((hIn _ hMem).trans (congrArg some (Lib.foldl_insert_toList log.versions)))
  have hAbsent : (∀ log, h.files[room]? = some log → log.isStored = false) →
      h.restart.versions room = ∅ := by
    intro hNone
    refine Option.some.inj (hOut room ?_)
    rintro entry hEntry rfl
    obtain ⟨hFile, hStored⟩ := List.mem_filter.mp hEntry
    rw [hNone entry.2 (Lib.mem_toList_iff.mp hFile)] at hStored
    cases hStored
  rw [roomLog]
  cases hFile : h.files[room]? with
  | none => exact hAbsent fun log hLog => by rw [hFile] at hLog; cases hLog
  | some log =>
    cases hStored : log.isStored with
    | true => exact hRead log hFile hStored
    | false =>
      have hEmpty : log.versions = ∅ := by
        have hIsEmpty : log.versions.isEmpty = true := by
          by_contra hSome
          simp [RoomLog.isStored, hSome] at hStored
        exact ExtTreeMap.isEmpty_iff.mp hIsEmpty
      rw [Option.getD_some, hEmpty]
      refine hAbsent fun other hOther => ?_
      rw [hFile] at hOther
      obtain rfl := Option.some.inj hOther
      exact hStored

/-- The next ordinal after a restart is above every ordinal read back. -/
theorem ordinal_restart (h : StoredHub σ) {room : RoomId} {name : Bytes} {v : Version σ}
    (hStored : (h.roomLog room).versions[name]? = some v) : v.ordinal < h.restart.versionOrdinal := by
  have hHeld : (h.restart.versions room)[name]? = some v := by rwa [versions_restart]
  have hLoaded : ∃ log, (room, log) ∈ h.load := by
    rw [roomLog] at hStored
    cases hFile : h.files[room]? with
    | none => simp [hFile, RoomLog.empty] at hStored
    | some log =>
      rw [hFile, Option.getD_some] at hStored
      have hSome : log.versions.isEmpty = false := by
        by_contra hEmpty
        rw [Bool.not_eq_false, ExtTreeMap.isEmpty_iff] at hEmpty
        simp [hEmpty] at hStored
      refine ⟨log, List.mem_filter.mpr ⟨Lib.mem_toList_iff.mpr hFile, ?_⟩⟩
      simp [RoomLog.isStored, hSome]
  obtain ⟨log, hLoaded⟩ := hLoaded
  have hMem : v.ordinal + 1 ∈ h.load.flatMap fun entry =>
      (h.restart.versions entry.1).values.map fun version => version.ordinal + 1 := by
    refine List.mem_flatMap.mpr ⟨_, hLoaded, List.mem_map.mpr ⟨v, ?_, rfl⟩⟩
    rw [Lib.values_eq_map_snd]
    exact List.mem_map.mpr ⟨(name, v), Lib.mem_toList_iff.mpr hHeld, rfl⟩
  change v.ordinal + 1 ≤ List.foldl max 0 (h.load.flatMap fun entry =>
    (h.restart.versions entry.1).values.map fun version => version.ordinal + 1)
  rw [List.foldl_max]
  exact (List.le_max?_getD_of_mem hMem).trans (le_max_right ..)

theorem step_restart (h : StoredHub σ) : h.indexes.Step h.restart.indexes := by
  refine .reload (funext (versions_restart h)) rfl fun room name v hStored => ?_
  exact ordinal_restart h hStored

end Restart

end StoredHub

end Server

end CrdtSync
