import CrdtSync.Core.Client
import CrdtSync.Server.Reload

/-!
# Replica identity claims

The first authenticated actor whose batch lands under a replica identity owns it in that
room, and a batch of another actor under it is refused. The claim is a record of the node
that took the batch: every operation of its hub keeps it, and so does a restart, and it
does not travel with the ops to another node.
-/

namespace CrdtSync

namespace Server

open Std (ExtTreeMap)

/-- The identity a channel of a connection authors under. Every channel but the first takes one
derived from the declared id and its number. -/
def forChannel (derive : ClientId → Nat → ClientId) (client : ClientId) (channel : Nat) : ClientId :=
  if channel = 0 then client else derive client channel

/-- A batch on a bound channel of an authenticated connection. -/
structure Write where
  actor : Bytes
  client : ClientId
  channel : Nat
  room : RoomId
  branch : Bytes
  ops : List Op
  version : Option Nat

/-- A batch that is not taken: the connection closes, or is redirected, or keeps its ops. -/
inductive Refusal
  | violation (message : String)
  | redirect
  | opsRejected (reason : ErrorCode)
  | internal (message : String)

structure WriteResponse where
  accepted : Option Nat
  broadcast : List Op
  rootEstablished : Bool

def isReveal : OpKind → Bool
  | .xmlReveal .. => true
  | _ => false

variable {σ : Type}

/-- The gates that read the node and touch nothing: leadership, authorization, and on the default
branch zone crossings and the schema. -/
structure Gates (σ : Type) where
  redirect : StoredHub σ → Write → Option Refusal
  authorize : StoredHub σ → Write → Option Refusal
  validate : StoredHub σ → Write → Option Refusal

namespace StoredHub

/-- The actor that owns a replica identity in a room. -/
def clientActor (h : StoredHub σ) (room : RoomId) (client : ClientId) : Option Bytes :=
  (h.rooms room).bind fun r => r.clientActors[client]?

def roomCreator (h : StoredHub σ) (room : RoomId) : Option Bytes :=
  (h.rooms room).bind LoggedRoom.creator

/-- The refusal of a batch, if some gate refuses it. -/
def refusal (h : StoredHub σ) (gates : Gates σ) (authoring : ClientId) (w : Write) : Option Refusal :=
  if w.ops.any fun op => op.id.client ≠ authoring then some (.violation "op client mismatch")
  else if authoring = h.server then
    some (.violation "ops authored under the node's replica identity")
  else if w.ops.any fun op => isReveal op.kind then some (.violation "client authored a reveal op")
  else if !w.ops.all Op.isAdmissible then some (.opsRejected .malformedOp)
  else if (gates.redirect h w).isSome then gates.redirect h w
  else if !w.ops.isEmpty && (h.clientActor w.room authoring).any (· ≠ w.actor) then
    some (.opsRejected .forbidden)
  else if (gates.authorize h w).isSome then gates.authorize h w
  else if h.isPublished w.room w.branch then some (.opsRejected .forbidden)
  else if w.branch = MAIN_BRANCH then gates.validate h w
  else none

variable [Folds σ]

/-- Take a batch: gate it, ingest it, root the room it establishes, and claim the identity it was
authored under if it landed an op. -/
def handleOps (h : StoredHub σ) (derive : ClientId → Nat → ClientId) (gates : Gates σ)
    (faults : Faults) (w : Write) : Except Refusal WriteResponse × StoredHub σ :=
  let authoring := forChannel derive w.client w.channel
  match h.refusal gates authoring w with
  | some refusal => (.error refusal, h)
  | none =>
    let through := (w.ops.map fun op => op.id.seq).max?
    let (applied, rootEstablished, h) :=
      if w.branch = MAIN_BRANCH then
        match h.ingest faults w.room w.ops w.version with
        | (.error e, h) => (.error e, false, h)
        | (.ok landed, h) =>
          let (rootEstablished, h) := h.ensureCreator faults w.room w.actor
          (.ok landed, rootEstablished, h)
      else
        let (applied, h) := h.ingestBranch faults w.room w.branch w.ops w.version
        (applied, false, h)
    match applied with
    | .error _ => (.error (.internal "failed to persist ops"), h)
    | .ok landed =>
      let h := if landed.isEmpty then h else h.claimClient faults w.room authoring w.actor
      (.ok ⟨through, landed, rootEstablished⟩, h)

end StoredHub

/-! ### Runs of a node -/

/-- No store call fails. -/
def noFaults : Faults := fun _ => false

def HubCall.claims : HubCall σ → Bool
  | .claimClient .. => true
  | _ => false

/-- A client's batch, any other call on the hub (a replication frame is one to three of them), or
a restart. Only a batch claims. -/
inductive NodeEvent (σ : Type)
  | ops (write : Write)
  | call (call : HubCall σ) (hCall : call.claims = false)
  | restart

/-- A batch that landed an op in a room. -/
structure Landing where
  room : RoomId
  authoring : ClientId
  actor : Bytes
deriving DecidableEq

/-- A node and the batches that landed on it, in rooms it holds. -/
structure Node (σ : Type) where
  hub : StoredHub σ
  landed : List Landing

namespace Node

variable [Folds σ]

def step (derive : ClientId → Nat → ClientId) (gates : Gates σ) (n : Node σ) :
    NodeEvent σ → Node σ
  | .ops w =>
    let (response, hub) := n.hub.handleOps derive gates noFaults w
    match response with
    | .error _ => ⟨hub, n.landed⟩
    | .ok response =>
      if !response.broadcast.isEmpty && hub.holdsRoom w.room then
        ⟨hub, n.landed ++ [⟨w.room, forChannel derive w.client w.channel, w.actor⟩]⟩
      else ⟨hub, n.landed⟩
  | .call call _ => ⟨(n.hub.perform noFaults call).2, n.landed⟩
  | .restart => ⟨n.hub.restart, n.landed⟩

def run (derive : ClientId → Nat → ClientId) (gates : Gates σ) (n : Node σ)
    (events : List (NodeEvent σ)) : Node σ := events.foldl (step derive gates) n

end Node

/-! ### Set-once records -/

/-- A field that is kept, or set to an authenticated actor where it was unset. -/
def SetOnce (before after : Option Bytes) : Prop :=
  after = before ∨ before = none ∧ after.all isAuthenticated = true

namespace SetOnce

variable {a b c : Option Bytes} {actor : Bytes}

theorem refl (a : Option Bytes) : SetOnce a a := .inl rfl

theorem trans (hab : SetOnce a b) (hbc : SetOnce b c) : SetOnce a c := by
  obtain rfl | ⟨hNone, hAll⟩ := hbc
  · exact hab
  obtain rfl | ⟨hNone', -⟩ := hab
  · exact .inr ⟨hNone, hAll⟩
  · exact .inr ⟨hNone', hAll⟩

theorem some_of_some (h : SetOnce (some actor) b) : b = some actor := by
  obtain h | ⟨h, -⟩ := h
  · exact h
  · cases h

theorem all (h : SetOnce a b) (ha : a.all isAuthenticated = true) : b.all isAuthenticated = true := by
  obtain rfl | ⟨-, h⟩ := h
  · exact ha
  · exact h

end SetOnce

theorem filter_of_all {a : Option Bytes} (h : a.all isAuthenticated = true) :
    a.filter isAuthenticated = a := by
  cases a with
  | none => rfl
  | some actor =>
    rw [Option.filter_some, if_pos]
    exact h

theorem all_filter (a : Option Bytes) : (a.filter isAuthenticated).all isAuthenticated = true := by
  cases a with
  | none => rfl
  | some actor =>
    rw [Option.filter_some]
    cases hActor : isAuthenticated actor <;> simp [hActor]

namespace StoredHub

def storedActor (h : StoredHub σ) (room : RoomId) (client : ClientId) : Option Bytes :=
  (h.roomLog room).metadata.bind fun m => m.clientActors[client]?

def storedCreator (h : StoredHub σ) (room : RoomId) : Option Bytes :=
  (h.roomLog room).metadata.bind RoomMeta.creator

def Recorded (h : StoredHub σ) (room : RoomId) : Prop :=
  h.storedCreator room = h.roomCreator room ∧ ∀ client, h.storedActor room client = h.clientActor room client

/-- From one hub to a later one: creators and owners are set once, and a room whose record was the
one in memory has a record that is. -/
structure Later (h h' : StoredHub σ) : Prop where
  creator : ∀ room, SetOnce (h.roomCreator room) (h'.roomCreator room)
  owner : ∀ room client, SetOnce (h.clientActor room client) (h'.clientActor room client)
  recorded : ∀ room, h.Recorded room → h'.Recorded room

/-- A later hub with the same owners. -/
structure Keeps (h h' : StoredHub σ) : Prop where
  creator : ∀ room, SetOnce (h.roomCreator room) (h'.roomCreator room)
  owner : ∀ room client, h'.clientActor room client = h.clientActor room client
  recorded : ∀ room, h.Recorded room → h'.Recorded room

variable {h h' h'' : StoredHub σ} {room : RoomId} {r : LoggedRoom σ}

theorem Later.trans (hFirst : h.Later h') (hSecond : h'.Later h'') : h.Later h'' where
  creator room := (hFirst.creator room).trans (hSecond.creator room)
  owner room client := (hFirst.owner room client).trans (hSecond.owner room client)
  recorded room hRecorded := hSecond.recorded room (hFirst.recorded room hRecorded)

theorem Keeps.later (h₁ : h.Keeps h') : h.Later h' :=
  ⟨h₁.creator, fun room client => .inl (h₁.owner room client), h₁.recorded⟩

theorem Keeps.refl (h : StoredHub σ) : h.Keeps h := ⟨fun _ => .refl _, fun _ _ => rfl, fun _ => id⟩

theorem Keeps.trans (hFirst : h.Keeps h') (hSecond : h'.Keeps h'') : h.Keeps h'' where
  creator room := (hFirst.creator room).trans (hSecond.creator room)
  owner room client := (hSecond.owner room client).trans (hFirst.owner room client)
  recorded room hRecorded := hSecond.recorded room (hFirst.recorded room hRecorded)

/-- A change of nothing but the state in memory beside the rooms. -/
theorem Keeps.of_eq (hRooms : h'.rooms = h.rooms) (hFiles : h'.files = h.files) : h.Keeps h' where
  creator room := .inl (by rw [roomCreator, roomCreator, hRooms])
  owner room client := by rw [clientActor, clientActor, hRooms]
  recorded room hRecorded := by
    simpa only [Recorded, storedCreator, storedActor, roomCreator, clientActor, roomLog, hRooms,
      hFiles] using hRecorded

theorem roomLog_write (f : RoomLog σ → RoomLog σ) (other : RoomId) :
    (h.write room f).roomLog other = if other = room then f (h.roomLog room) else h.roomLog other := by
  rw [roomLog, write, Lib.getElem?_insert_ite]
  split <;> rfl

theorem keeps_write {f : RoomLog σ → RoomLog σ} (hMeta : ∀ l, (f l).metadata = l.metadata) :
    h.Keeps (h.write room f) where
  creator _ := .refl _
  owner _ _ := rfl
  recorded other hRecorded := by
    have hSame : ((h.write room f).roomLog other).metadata = (h.roomLog other).metadata := by
      rw [roomLog_write]
      split
      next hOther => rw [hMeta, hOther]
      next => rfl
    rw [Recorded, storedCreator, hSame]
    refine ⟨hRecorded.1, fun client => ?_⟩
    rw [storedActor, hSame]
    exact hRecorded.2 client

theorem call_noFaults (h : StoredHub σ) (c : StoreCall) (room : RoomId) (f : RoomLog σ → RoomLog σ) :
    h.call noFaults c room f = .ok (h.write room f) := rfl

theorem attempt_noFaults (h : StoredHub σ) (c : StoreCall) (room : RoomId)
    (f : RoomLog σ → RoomLog σ) : h.attempt noFaults c room f = h.write room f := rfl

theorem keeps_attempt {c : StoreCall} {f : RoomLog σ → RoomLog σ}
    (hMeta : ∀ l, (f l).metadata = l.metadata) : h.Keeps (h.attempt noFaults c room f) := by
  rw [attempt_noFaults]
  exact keeps_write hMeta

theorem roomCreator_setRoom (other : RoomId) :
    (h.setRoom room r).roomCreator other = if other = room then r.creator else h.roomCreator other := by
  rw [roomCreator, setRoom]
  by_cases hOther : other = room
  · rw [if_pos hOther, hOther]
    simp
  · rw [if_neg hOther]
    simp [hOther, roomCreator]

theorem clientActor_setRoom (other : RoomId) (client : ClientId) :
    (h.setRoom room r).clientActor other client =
      if other = room then r.clientActors[client]? else h.clientActor other client := by
  rw [clientActor, setRoom]
  by_cases hOther : other = room
  · rw [if_pos hOther, hOther]
    simp
  · rw [if_neg hOther]
    simp [hOther, clientActor]

theorem keeps_setRoom (hCreator : r.creator = h.roomCreator room)
    (hOwner : ∀ client, r.clientActors[client]? = h.clientActor room client) :
    h.Keeps (h.setRoom room r) := by
  have hCreators : ∀ other, (h.setRoom room r).roomCreator other = h.roomCreator other := by
    intro other
    rw [roomCreator_setRoom]
    split
    next hOther => rw [hCreator, hOther]
    next => rfl
  have hOwners : ∀ other client,
      (h.setRoom room r).clientActor other client = h.clientActor other client := by
    intro other client
    rw [clientActor_setRoom]
    split
    next hOther => rw [hOwner, hOther]
    next => rfl
  refine ⟨fun other => .inl (hCreators other), hOwners, ?_⟩
  intro other hRecorded
  refine ⟨?_, fun client => ?_⟩
  · rw [hCreators]
    exact hRecorded.1
  · rw [hOwners]
    exact hRecorded.2 client

theorem roomLog_persistMeta (h : StoredHub σ) (room other : RoomId) :
    (h.persistMeta noFaults room).roomLog other =
      if other = room then (h.roomLog room).writeMeta (h.roomMeta room) else h.roomLog other := by
  rw [persistMeta, attempt_noFaults, roomLog_write]

theorem recorded_persistMeta (h : StoredHub σ) (room : RoomId) :
    (h.persistMeta noFaults room).Recorded room := by
  have hMeta : ((h.persistMeta noFaults room).roomLog room).metadata =
      ((h.roomLog room).writeMeta (h.roomMeta room)).metadata := by
    rw [roomLog_persistMeta, if_pos rfl]
  rw [Recorded, storedCreator, hMeta]
  simp only [storedActor, hMeta]
  have hCreator : (h.persistMeta noFaults room).roomCreator room = (h.roomMeta room).creator := rfl
  have hOwner : ∀ client, (h.persistMeta noFaults room).clientActor room client =
      (h.roomMeta room).clientActors[client]? := by
    intro client
    change h.clientActor room client = _
    rw [clientActor, roomMeta]
    cases h.rooms room with
    | none => simp
    | some r => rfl
  rw [hCreator]
  simp only [hOwner]
  unfold RoomLog.writeMeta
  split
  next hEmpty =>
    simp only [Bool.and_eq_true, Option.isNone_iff_eq_none] at hEmpty
    obtain ⟨⟨-, hNone⟩, hActors⟩ := hEmpty
    refine ⟨hNone.symm, fun client => ?_⟩
    rw [ExtTreeMap.isEmpty_iff.mp hActors]
    simp
  next => exact ⟨rfl, fun _ => rfl⟩

/-- A write of a room's record, whatever the room has become. -/
theorem later_establish (hCreator : SetOnce (h.roomCreator room) r.creator)
    (hOwner : ∀ client, SetOnce (h.clientActor room client) r.clientActors[client]?) :
    h.Later ((h.setRoom room r).persistMeta noFaults room) where
  creator other := by
    change SetOnce _ ((h.setRoom room r).roomCreator other)
    rw [roomCreator_setRoom]
    split
    next hOther => rwa [hOther]
    next => exact .refl _
  owner other client := by
    change SetOnce _ ((h.setRoom room r).clientActor other client)
    rw [clientActor_setRoom]
    split
    next hOther =>
      rw [hOther]
      exact hOwner client
    next => exact .refl _
  recorded other hRecorded := by
    by_cases hOther : other = room
    · rw [hOther]
      exact recorded_persistMeta _ room
    have hCreators : ((h.setRoom room r).persistMeta noFaults room).roomCreator other =
        h.roomCreator other := by
      change (h.setRoom room r).roomCreator other = _
      rw [roomCreator_setRoom, if_neg hOther]
    have hOwners : ∀ client, ((h.setRoom room r).persistMeta noFaults room).clientActor other client =
        h.clientActor other client := by
      intro client
      change (h.setRoom room r).clientActor other client = _
      rw [clientActor_setRoom, if_neg hOther]
    have hLog : ((h.setRoom room r).persistMeta noFaults room).roomLog other = h.roomLog other := by
      rw [roomLog_persistMeta, if_neg hOther]
      rfl
    rw [Recorded, storedCreator, hCreators, hLog]
    refine ⟨hRecorded.1, fun client => ?_⟩
    rw [hOwners, storedActor, hLog]
    exact hRecorded.2 client

theorem keeps_establish (hCreator : SetOnce (h.roomCreator room) r.creator)
    (hOwner : ∀ client, r.clientActors[client]? = h.clientActor room client) :
    h.Keeps ((h.setRoom room r).persistMeta noFaults room) := by
  have hLater := later_establish hCreator fun client => .inl (hOwner client)
  refine ⟨hLater.creator, fun other client => ?_, hLater.recorded⟩
  change (h.setRoom room r).clientActor other client = _
  rw [clientActor_setRoom]
  split
  next hOther => rw [hOwner, hOther]
  next => rfl

theorem keeps_persistMeta (h : StoredHub σ) (room : RoomId) : h.Keeps (h.persistMeta noFaults room) where
  creator _ := .refl _
  owner _ _ := rfl
  recorded other hRecorded := by
    by_cases hOther : other = room
    · rw [hOther]
      exact recorded_persistMeta _ room
    have hLog : (h.persistMeta noFaults room).roomLog other = h.roomLog other := by
      rw [roomLog_persistMeta, if_neg hOther]
    rw [Recorded, storedCreator, hLog]
    refine ⟨hRecorded.1, fun client => ?_⟩
    rw [storedActor, hLog]
    exact hRecorded.2 client

/-! ### The operations of a hub -/

theorem roomCreator_eq (hRoom : h.rooms room = some r) : h.roomCreator room = r.creator := by
  rw [roomCreator, hRoom]
  rfl

theorem clientActor_eq (hRoom : h.rooms room = some r) (client : ClientId) :
    h.clientActor room client = r.clientActors[client]? := by
  rw [clientActor, hRoom]
  rfl

theorem keeps_ensureCreator (h : StoredHub σ) (room : RoomId) (actor : Bytes) :
    h.Keeps (h.ensureCreator noFaults room actor).2 := by
  unfold ensureCreator
  split
  · exact .refl h
  next hActor =>
    split
    · exact .refl h
    next r hRoom =>
      split
      next hNone =>
        refine keeps_establish ?_ fun client => ?_
        · refine .inr ⟨?_, by simpa using hActor⟩
          rw [roomCreator_eq hRoom]
          exact Option.isNone_iff_eq_none.mp hNone
        · exact (clientActor_eq hRoom client).symm
      · exact .refl h

theorem later_claimClient (h : StoredHub σ) (room : RoomId) (client : ClientId) (actor : Bytes) :
    h.Later (h.claimClient noFaults room client actor) := by
  unfold claimClient
  split
  · exact (Keeps.refl h).later
  next hActor =>
    split
    · exact (Keeps.refl h).later
    next r hRoom =>
      split
      · exact (Keeps.refl h).later
      next hNew =>
        refine later_establish ?_ fun other => ?_
        · rw [roomCreator_eq hRoom]
          exact .refl _
        · rw [clientActor_eq hRoom, Lib.getElem?_insert_ite]
          split
          next hOther =>
            refine .inr ⟨?_, by simpa using hActor⟩
            rw [hOther]
            exact ExtTreeMap.getElem?_eq_none hNew
          next => exact .refl _

theorem keeps_raiseMaxOpVersion (h : StoredHub σ) (room : RoomId) (version : Option Nat) :
    h.Keeps (h.raiseMaxOpVersion noFaults room version) := by
  unfold raiseMaxOpVersion
  split
  · exact .refl h
  next r hRoom =>
    split
    · refine keeps_establish ?_ fun client => ?_
      · rw [roomCreator_eq hRoom]
        exact .refl _
      · exact (clientActor_eq hRoom client).symm
    · exact .refl h

theorem keeps_bindGoverning (h : StoredHub σ) (room : RoomId) (app : Bytes) (version : Nat) :
    h.Keeps (h.bindGoverning noFaults room app version) := by
  unfold bindGoverning
  split
  · exact .refl h
  · have hBound : h.Keeps (h.setGoverning room (some (app, version))) := .of_eq rfl rfl
    exact hBound.trans (keeps_persistMeta _ room)

theorem keeps_compact (h : StoredHub σ) (room : RoomId) : h.Keeps (h.compact noFaults room).2 := by
  unfold compact
  split
  · exact .refl h
  next r hRoom =>
    have hRoom' : h.Keeps (h.setRoom room r.compact) :=
      keeps_setRoom (roomCreator_eq hRoom).symm fun client => (clientActor_eq hRoom client).symm
    simp only [call_noFaults]
    exact hRoom'.trans (keeps_write fun _ => rfl)

theorem appendRecords_noFaults (h : StoredHub σ) (room : RoomId) (recs : List StoredOp) :
    ∃ h', h.appendRecords noFaults room recs = .ok h' ∧ h.Keeps h' ∧ h'.rooms = h.rooms := by
  unfold appendRecords
  split
  · exact ⟨h, rfl, .refl h, rfl⟩
  · exact ⟨_, rfl, keeps_write fun _ => rfl, rfl⟩

theorem appendBranch_noFaults (h : StoredHub σ) (room : RoomId) (branch : Bytes)
    (recs : List StoredOp) :
    ∃ h', h.appendBranch noFaults room branch recs = .ok h' ∧ h.Keeps h' ∧ h'.rooms = h.rooms := by
  unfold appendBranch
  split
  · exact ⟨h, rfl, .refl h, rfl⟩
  · exact ⟨_, rfl, keeps_write fun _ => rfl, rfl⟩

theorem keeps_open (h : StoredHub σ) (room : RoomId) :
    h.Keeps (h.setRoom room ((h.rooms room).getD (LoggedRoom.new h.server h.content))) := by
  cases hRoom : h.rooms room with
  | none =>
    refine keeps_setRoom ?_ fun client => ?_
    · rw [roomCreator, hRoom]
      rfl
    · rw [clientActor, hRoom]
      simp [LoggedRoom.new]
  | some r => exact keeps_setRoom (roomCreator_eq hRoom).symm fun client => (clientActor_eq hRoom client).symm

theorem keeps_mutateBranches (h : StoredHub σ) (room : RoomId)
    (change : BranchRegistry → Option BranchRegistry) :
    h.Keeps (h.mutateBranches noFaults room change).2 := by
  unfold mutateBranches
  split
  · exact .refl h
  next registry hChange =>
    have hMemory : h.Keeps (h.setBranches room registry) := .of_eq rfl rfl
    have hWritten : (h.setBranches room registry).Keeps ((h.setBranches room registry).write room
        fun l => { l with branches := registry.forks }) := keeps_write fun _ => rfl
    exact hMemory.trans hWritten

theorem keeps_installRoomState (h : StoredHub σ) (room : RoomId) (state : Option (DocState σ))
    (floor : Option Nat) (creator : Option Bytes) (history : List StoredOp) :
    h.Keeps (h.installRoomState noFaults room state floor creator history).2 := by
  unfold installRoomState
  split
  · exact .refl h
  next state =>
    simp only [call_noFaults]
    have hWritten : h.Keeps (h.write room fun l => l.compact
        ⟨floor.getD (Document.decoded state).seen.card, state, history⟩) := keeps_write fun _ => rfl
    refine hWritten.trans (keeps_establish ?_ fun client => ?_)
    · change SetOnce (h.roomCreator room) ((h.roomCreator room).or _)
      cases h.roomCreator room with
      | none =>
        refine .inr ⟨rfl, ?_⟩
        rw [Option.none_or]
        exact all_filter creator
      | some actor => exact .refl _
    · change ((h.rooms room).elim ∅ LoggedRoom.clientActors)[client]? = h.clientActor room client
      rw [clientActor]
      cases h.rooms room with
      | none => simp
      | some r => rfl

theorem persistVersions_noFaults (h : StoredHub σ) (room : RoomId)
    (index : ExtTreeMap Bytes (Version σ) compare) :
    ∃ h', (h.setVersions room index).persistVersions noFaults room = .ok h' ∧ h.Keeps h' := by
  have hMemory : h.Keeps (h.setVersions room index) := .of_eq rfl rfl
  exact ⟨_, rfl, hMemory.trans (keeps_write fun _ => rfl)⟩

theorem keeps_createVersionWith (h : StoredHub σ) (room : RoomId) (name : Bytes)
    (origin : Option Bytes) (snapshot : Option (Snapshot σ)) :
    h.Keeps (h.createVersionWith noFaults room name origin snapshot).2 := by
  unfold createVersionWith
  split
  · exact .refl h
  next s hSnapshot =>
    dsimp only
    split
    · exact .refl h
    · obtain ⟨h₁, hEq, hKeeps⟩ := persistVersions_noFaults
        { h with versionOrdinal := h.versionOrdinal + 1 } room
        ((h.versions room).insert name ⟨s.baseSeq, origin, h.versionOrdinal, s.state, s.history⟩)
      rw [hEq]
      have hSpent : h.Keeps { h with versionOrdinal := h.versionOrdinal + 1 } := .of_eq rfl rfl
      exact hSpent.trans hKeeps

theorem keeps_retainByOrigin (h : StoredHub σ) (room : RoomId) (origin : Bytes) (keep : Nat) :
    h.Keeps (h.retainByOrigin noFaults room origin keep).2 := by
  unfold retainByOrigin
  dsimp only
  split
  · exact .refl h
  · obtain ⟨h₁, hEq, hKeeps⟩ := persistVersions_noFaults h room
      ((doomed (h.versions room) origin keep).foldl ExtTreeMap.erase (h.versions room))
    rw [hEq]
    exact hKeeps

theorem keeps_renameVersion (h : StoredHub σ) (room : RoomId) (source target : Bytes) :
    h.Keeps (h.renameVersion noFaults room source target).2 := by
  unfold renameVersion
  dsimp only
  split
  · exact .refl h
  next version hVersion =>
    split
    · exact .refl h
    · obtain ⟨h₁, hEq, hKeeps⟩ := persistVersions_noFaults h room
        (((h.versions room).erase source).insert target { version with origin := none })
      rw [hEq]
      exact hKeeps

theorem keeps_deleteVersion (h : StoredHub σ) (room : RoomId) (name : Bytes) :
    h.Keeps (h.deleteVersion noFaults room name).2 := by
  unfold deleteVersion
  dsimp only
  split
  · exact .refl h
  · obtain ⟨h₁, hEq, hKeeps⟩ := persistVersions_noFaults h room ((h.versions room).erase name)
    rw [hEq]
    exact hKeeps

theorem keeps_setActiveBranch (h : StoredHub σ) (room : RoomId) (branch : Bytes) :
    h.Keeps (h.setActiveBranch noFaults room branch).2 := by
  unfold setActiveBranch
  split
  · exact .refl h
  · have hWritten : h.Keeps (h.write room (·.writeActiveBranch branch)) := keeps_write fun _ => rfl
    exact hWritten.trans (.of_eq rfl rfl)

theorem keeps_importRoom (h : StoredHub σ) (room : RoomId) (state : Option (DocState σ))
    (history : List StoredOp) : h.Keeps (h.importRoom noFaults room state history).2 := by
  unfold importRoom
  split
  · exact .refl h
  · have hInstall := keeps_installRoomState h room state none none history
    split
    next hEq =>
      rw [hEq] at hInstall
      exact hInstall
    next hEq =>
      rw [hEq] at hInstall
      exact hInstall

theorem keeps_persistEpoch (h : StoredHub σ) (room : RoomId) (epoch : Nat) :
    h.Keeps (h.persistEpoch noFaults room epoch) := keeps_attempt fun _ => rfl

theorem removeBranchFiles_noFaults (h : StoredHub σ) (room : RoomId) (name : Bytes) :
    ∃ h₁ h₂, h.removeBranchLog noFaults room name = .ok h₁ ∧
      h₁.removeBranchBase noFaults room name = .ok h₂ ∧ h.Keeps h₂ := by
  have hLog : h.Keeps (h.write room fun l => { l with branchOps := l.branchOps.erase name }) :=
    keeps_write fun _ => rfl
  exact ⟨_, _, rfl, rfl, hLog.trans (keeps_write fun _ => rfl)⟩

theorem keeps_deleteBranch (h : StoredHub σ) (room : RoomId) (name : Bytes) :
    h.Keeps (h.deleteBranch noFaults room name).2 := by
  unfold deleteBranch
  have hPointer := keeps_mutateBranches h room (·.delete name)
  split
  next hEq =>
    rw [hEq] at hPointer
    exact hPointer
  next hEq =>
    rw [hEq] at hPointer
    exact hPointer
  next h₁ hEq =>
    rw [hEq] at hPointer
    have hMemory : h.Keeps ((h₁.setTail room name .empty).setBase room name none) :=
      hPointer.trans (.of_eq rfl rfl)
    dsimp only
    generalize (h₁.setTail room name .empty).setBase room name none = h₂ at hMemory ⊢
    obtain ⟨h₃, h₄, hLog, hBase, hFiles⟩ := removeBranchFiles_noFaults h₂ room name
    rw [hLog]
    dsimp only
    rw [hBase]
    dsimp only
    have hRemoved := hMemory.trans hFiles
    split
    · have hActive := hRemoved.trans (keeps_setActiveBranch h₄ room MAIN_BRANCH)
      split
      next hSet =>
        rw [hSet] at hActive
        exact hActive
      next hSet =>
        rw [hSet] at hActive
        exact hActive
    · exact hRemoved

theorem writeBranchBase_noFaults (h : StoredHub σ) (room : RoomId) (name : Bytes) (base : Base σ) :
    ∃ h', h.writeBranchBase noFaults room name base = .ok h' ∧ h.Keeps h' :=
  ⟨_, rfl, keeps_write fun _ => rfl⟩

theorem keeps_forkBranchFromVersion (h : StoredHub σ) (room : RoomId) (new version : Bytes) :
    h.Keeps (h.forkBranchFromVersion noFaults room new version).2 := by
  unfold forkBranchFromVersion
  split
  · exact .refl h
  next v hVersion =>
    split
    · exact .refl h
    dsimp only
    obtain ⟨h₁, hEq, hBase⟩ := writeBranchBase_noFaults h room new ⟨v.state, v.history⟩
    rw [hEq]
    dsimp only
    have hMemory : h.Keeps (h₁.setBase room new (some ⟨v.state, v.history⟩)) :=
      hBase.trans (.of_eq rfl rfl)
    have hPointer := hMemory.trans (keeps_mutateBranches _ room (·.fork new MAIN_BRANCH v.seq))
    split
    next hFork =>
      rw [hFork] at hPointer
      exact hPointer
    next result h₂ _ hFork =>
      rw [hFork] at hPointer
      have hBack : h.Keeps (h₂.setBase room new none) := hPointer.trans (.of_eq rfl rfl)
      refine hBack.trans ?_
      dsimp only
      exact keeps_attempt fun _ => rfl

theorem keeps_restoreAsBranch (h : StoredHub σ) (room : RoomId) (version newBranch : Bytes) :
    h.Keeps (h.restoreAsBranch noFaults room version newBranch).2 := by
  unfold restoreAsBranch
  have hFork := keeps_forkBranchFromVersion h room newBranch version
  split
  next hEq =>
    rw [hEq] at hFork
    exact hFork
  next hEq =>
    rw [hEq] at hFork
    exact hFork
  next h₁ hEq =>
    rw [hEq] at hFork
    have hCapture := hFork.trans (keeps_createVersionWith h₁ room
      (restoreAudit newBranch (h₁.seq room)) none none)
    split
    next hVersion =>
      rw [← createVersion, hVersion] at hCapture
      exact hCapture
    next h₂ hVersion =>
      rw [← createVersion, hVersion] at hCapture
      have hActive := hCapture.trans (keeps_setActiveBranch h₂ room newBranch)
      split
      next hSet =>
        rw [hSet] at hActive
        exact hActive
      next hSet =>
        rw [hSet] at hActive
        exact hActive

theorem keeps_repointPublished (h : StoredHub σ) (room : RoomId) (published : Bytes) (seq : Nat)
    (base : Base σ) : h.Keeps (h.repointPublished noFaults room published seq base).2 := by
  unfold repointPublished
  obtain ⟨h₁, hEq, hBase⟩ := writeBranchBase_noFaults h room published base
  rw [hEq]
  dsimp only
  have hMemory : h.Keeps (h₁.setBase room published (some base)) := hBase.trans (.of_eq rfl rfl)
  have hPointer := hMemory.trans
    (keeps_mutateBranches _ room (·.pointPublished published seq))
  split
  next h₂ hPoint =>
    rw [hPoint] at hPointer
    have hTail : h.Keeps (h₂.setTail room published .empty) := hPointer.trans (.of_eq rfl rfl)
    refine hTail.trans ?_
    dsimp only
    exact keeps_attempt fun _ => rfl
  next result h₂ _ hPoint =>
    rw [hPoint] at hPointer
    have hBack : h.Keeps (h₂.setBase room published (h₁.branchBases room published)) :=
      hPointer.trans (.of_eq rfl rfl)
    split
    · refine hBack.trans ?_
      dsimp only
      exact keeps_attempt fun _ => rfl
    · refine hBack.trans ?_
      dsimp only
      exact keeps_attempt fun _ => rfl

section Folds

variable [Folds σ]

theorem identity_foldl_commit (recs : List StoredOp) (r : LoggedRoom σ) :
    (recs.foldl LoggedRoom.commit r).creator = r.creator ∧
      (recs.foldl LoggedRoom.commit r).clientActors = r.clientActors := by
  induction recs generalizing r with
  | nil => exact ⟨rfl, rfl⟩
  | cons rec recs ih => exact ih (r.commit rec)

theorem keeps_ingestRecords (h : StoredHub σ) (room : RoomId) (recs : List StoredOp) :
    h.Keeps (h.ingestRecords noFaults room recs).2 := by
  unfold ingestRecords
  dsimp only
  have hOpen := keeps_open h room
  generalize (h.rooms room).getD (LoggedRoom.new h.server h.content) = r at hOpen
  generalize freshRecords r.seen ∅ recs = fresh
  obtain ⟨h₁, hAppend, hKeeps, hRooms⟩ := appendRecords_noFaults (h.setRoom room r) room fresh
  rw [hAppend]
  dsimp only
  have hRoom : h₁.rooms room = some r := by
    rw [hRooms, setRoom]
    simp
  obtain ⟨hCreator, hActors⟩ := identity_foldl_commit fresh r
  generalize fresh.foldl LoggedRoom.commit r = grown at hCreator hActors
  have hGrown : h.Keeps (h₁.setRoom room grown) := by
    refine (hOpen.trans hKeeps).trans (keeps_setRoom ?_ fun client => ?_)
    · rw [hCreator, roomCreator_eq hRoom]
    · rw [hActors, clientActor_eq hRoom]
  have hPersisted : h.Keeps (if grown.maxOpVersion ≠ r.maxOpVersion then
      (h₁.setRoom room grown).persistMeta noFaults room else h₁.setRoom room grown) := by
    split
    · exact hGrown.trans (keeps_persistMeta _ room)
    · exact hGrown
  generalize (if grown.maxOpVersion ≠ r.maxOpVersion then
    (h₁.setRoom room grown).persistMeta noFaults room else h₁.setRoom room grown) = h₂ at hPersisted ⊢
  split
  · have hCompact := hPersisted.trans (keeps_compact h₂ room)
    split
    next hEq =>
      rw [hEq] at hCompact
      exact hCompact
    next hEq =>
      rw [hEq] at hCompact
      exact hCompact
  · exact hPersisted

theorem keeps_ingestBranch (h : StoredHub σ) (room : RoomId) (branch : Bytes) (ops : List Op)
    (version : Option Nat) : h.Keeps (h.ingestBranch noFaults room branch ops version).2 := by
  unfold ingestBranch
  split
  · exact keeps_ingestRecords h room _
  split
  · exact .refl h
  next b hBranch =>
    dsimp only
    generalize freshRecords _ ∅ _ = fresh
    obtain ⟨h₁, hAppend, hKeeps, -⟩ := appendBranch_noFaults h room branch fresh
    rw [hAppend]
    dsimp only
    generalize fresh.foldl BranchLog.push (h.branchLogs room branch) = log
    have hTail : h.Keeps (h₁.setTail room branch log) := hKeeps.trans (.of_eq rfl rfl)
    have hHead := hTail.trans (keeps_mutateBranches (h₁.setTail room branch log) room
      (·.setHead branch (b.forkPoint + log.ops.length)))
    split
    next hEq =>
      rw [hEq] at hHead
      exact hHead
    next hEq =>
      rw [hEq] at hHead
      exact hHead

theorem keeps_publish (h : StoredHub σ) (room : RoomId) (published : Bytes) :
    h.Keeps (h.publish noFaults room published).2 := by
  unfold publish
  dsimp only
  split
  · exact .refl h
  split
  next state hState =>
    have hCapture := keeps_createVersionWith h room
      (publishAudit published (h.activeBranch room)
        ((h.branch room (h.activeBranch room)).elim (h.seq room) Branch.head)) none
      (some ⟨(h.branch room (h.activeBranch room)).elim (h.seq room) Branch.head, state,
        h.streamHistory room (h.activeBranch room)⟩)
    split
    next hVersion =>
      rw [hVersion] at hCapture
      exact hCapture
    next h₁ hVersion =>
      rw [hVersion] at hCapture
      have hPoint := hCapture.trans (keeps_repointPublished h₁ room published
        ((h.branch room (h.activeBranch room)).elim (h.seq room) Branch.head)
        ⟨state, h.streamHistory room (h.activeBranch room)⟩)
      split
      next hRepoint =>
        rw [hRepoint] at hPoint
        exact hPoint
      next hRepoint =>
        rw [hRepoint] at hPoint
        exact hPoint
  · exact .refl h

end Folds

/-! ### Clones and restarts -/

/-- The record of every room is stored as it is, and names authenticated actors. -/
structure Sound (h : StoredHub σ) : Prop where
  creator : ∀ room, (h.roomCreator room).all isAuthenticated = true
  owner : ∀ room client, (h.clientActor room client).all isAuthenticated = true
  recorded : ∀ room, h.Recorded room

theorem Sound.later (hSound : h.Sound) (hLater : h.Later h') : h'.Sound where
  creator room := (hLater.creator room).all (hSound.creator room)
  owner room client := (hLater.owner room client).all (hSound.owner room client)
  recorded room := hLater.recorded room (hSound.recorded room)

theorem rooms_setRoom_self (h : StoredHub σ) (room : RoomId) (r : LoggedRoom σ) :
    (h.setRoom room r).rooms room = some r := by simp [setRoom]

theorem raiseMaxOpVersion_room (hRoom : h.rooms room = some r) (version : Option Nat) :
    ∃ r', (h.raiseMaxOpVersion noFaults room version).rooms room = some r' ∧
      r'.creator = r.creator ∧ r'.clientActors = r.clientActors := by
  unfold raiseMaxOpVersion
  rw [hRoom]
  dsimp only
  split
  · exact ⟨_, rooms_setRoom_self .., rfl, rfl⟩
  · exact ⟨r, hRoom, rfl, rfl⟩

theorem rooms_bindGoverning (h : StoredHub σ) (room : RoomId) (app : Bytes) (version : Nat) :
    (h.bindGoverning noFaults room app version).rooms = h.rooms := by
  unfold bindGoverning
  split <;> rfl

/-- An install where nothing stands takes the creator it is given, and no claim. -/
theorem installRoomState_room (hNone : h.rooms room = none) (state : DocState σ)
    (floor : Option Nat) (creator : Option Bytes) (history : List StoredOp) :
    ∃ h' r', h.installRoomState noFaults room (some state) floor creator history = (.ok (), h') ∧
      h.Keeps h' ∧ h'.rooms room = some r' ∧ r'.creator = creator.filter isAuthenticated ∧
        r'.clientActors = ∅ := by
  have hKeeps := keeps_installRoomState h room (some state) floor creator history
  unfold installRoomState at hKeeps ⊢
  simp only [call_noFaults] at hKeeps ⊢
  refine ⟨_, _, rfl, hKeeps, rooms_setRoom_self .., ?_, ?_⟩
  · change ((h.rooms room).bind LoggedRoom.creator).or _ = _
    rw [hNone]
    rfl
  · change (h.rooms room).elim ∅ LoggedRoom.clientActors = ∅
    rw [hNone]
    rfl

/-- What an adoption of claims leaves a room with. -/
theorem getElem?_adopted (claims actors : ExtTreeMap ClientId Bytes compare) (client : ClientId) :
    (claims.toList.foldl (fun actors claim => actors.insertIfNew claim.1 claim.2) actors)[client]? =
      actors[client]?.or claims[client]? := by
  rw [Lib.getElem?_foldl_insertIfNew]
  congr 1
  ext actor
  rw [Lib.find?_key_eq_some (Lib.pairwise_ne_entries claims), Lib.mem_toList_iff]

/-- The last steps of a clone, over a target that stands with the source's creator and no claim. -/
theorem adopted_clone (hSound : h.Sound) {source target : RoomId} (hSource : h.rooms source = some r)
    (hKeeps : h.Keeps h') {r' : LoggedRoom σ} (hRoom : h'.rooms target = some r')
    (hCreator : r'.creator = r.creator.filter isAuthenticated) (hActors : r'.clientActors = ∅)
    (version : Option Nat) :
    h.Later (((h'.raiseMaxOpVersion noFaults target version).adoptClaims target
        r.clientActors).persistMeta noFaults target) ∧
      (((h'.raiseMaxOpVersion noFaults target version).adoptClaims target
        r.clientActors).persistMeta noFaults target).roomCreator target = h.roomCreator source ∧
      ∀ client, (((h'.raiseMaxOpVersion noFaults target version).adoptClaims target
        r.clientActors).persistMeta noFaults target).clientActor target client =
          h.clientActor source client := by
  obtain ⟨r₁, hRoom₁, hCreator₁, hActors₁⟩ := raiseMaxOpVersion_room hRoom version
  have hKeeps₁ := hKeeps.trans (keeps_raiseMaxOpVersion h' target version)
  generalize h'.raiseMaxOpVersion noFaults target version = h₁ at hRoom₁ hKeeps₁ ⊢
  rw [adoptClaims, hRoom₁]
  dsimp only
  have hOwners : ∀ client, (r.clientActors.toList.foldl
      (fun actors claim => actors.insertIfNew claim.1 claim.2) r₁.clientActors)[client]? =
        h.clientActor source client := by
    intro client
    rw [getElem?_adopted, hActors₁, hActors, clientActor_eq hSource]
    simp
  refine ⟨hKeeps₁.later.trans (later_establish ?_ fun client => ?_), ?_, fun client => ?_⟩
  · rw [roomCreator_eq hRoom₁]
    exact .refl _
  · refine .inr ⟨?_, ?_⟩
    · rw [clientActor_eq hRoom₁, hActors₁, hActors]
      simp
    · rw [hOwners]
      exact hSound.owner source client
  · change (h₁.setRoom target _).roomCreator target = _
    rw [roomCreator_setRoom, if_pos rfl, hCreator₁, hCreator, ← roomCreator_eq hSource,
      filter_of_all (hSound.creator source)]
  · change (h₁.setRoom target _).clientActor target client = _
    rw [clientActor_setRoom, if_pos rfl, hOwners]

/-- A clone that is made has its source's creator and claims, and any call keeps what stands. -/
theorem cloneRoom_spec (hSound : h.Sound) (source target : RoomId) :
    h.Later (h.cloneRoom noFaults source target).2 ∧
      ((h.cloneRoom noFaults source target).1 = .ok true →
        (h.cloneRoom noFaults source target).2.roomCreator target = h.roomCreator source ∧
          ∀ client, (h.cloneRoom noFaults source target).2.clientActor target client =
            h.clientActor source client) := by
  unfold cloneRoom
  split
  · exact ⟨(Keeps.refl h).later, nofun⟩
  next hFree =>
  have hNone : h.rooms target = none := by simpa [holdsRoom] using hFree
  split
  · exact ⟨(Keeps.refl h).later, nofun⟩
  next r hSource =>
  dsimp only
  obtain ⟨h₁, r₁, hEq, hKeeps, hRoom, hCreator, hActors⟩ :=
    installRoomState_room hNone r.doc.toDocState none r.creator r.history
  rw [hEq]
  cases h.governing source with
  | some binding =>
    have hBound := hKeeps.trans (keeps_bindGoverning h₁ target binding.1 binding.2)
    have hRooms := rooms_bindGoverning h₁ target binding.1 binding.2
    rw [← hRooms] at hRoom
    obtain ⟨hClone, hSame⟩ := adopted_clone hSound hSource hBound hRoom hCreator hActors r.maxOpVersion
    exact ⟨hClone, fun _ => hSame⟩
  | none =>
    dsimp only [Option.bind_none]
    split
    · have hUnbound : h₁.Keeps (h₁.setGoverning target none) := .of_eq rfl rfl
      have hPersisted := (hKeeps.trans hUnbound).trans (keeps_persistMeta _ target)
      obtain ⟨hClone, hSame⟩ := adopted_clone hSound hSource hPersisted hRoom hCreator hActors none
      exact ⟨hClone, fun _ => hSame⟩
    · obtain ⟨hClone, hSame⟩ := adopted_clone hSound hSource hKeeps hRoom hCreator hActors none
      exact ⟨hClone, fun _ => hSame⟩

end StoredHub

end Server

end CrdtSync
