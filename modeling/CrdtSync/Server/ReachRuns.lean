import CrdtSync.Core.Restored
import CrdtSync.Server.OpVersions
import Mathlib.Data.List.SplitBy

/-!
# Runs of a registry whose subscribers can be served

Whatever a room's log holds of its governing app resolves up to the high-water, and every
joined session of the app reaches the high-water, so it reaches every version below it.
-/

namespace CrdtSync

namespace Server

open Std (ExtTreeMap)

variable {σ μ : Type} {text : SchemaText μ}

namespace Session

variable {s : Session} {room other : RoomId}

theorem mem_subscribedRooms : room ∈ s.subscribedRooms ↔
    ∃ (channel : Nat) (joined : JoinedChannel), s.channels[channel]? = some joined ∧ joined.room = room := by
  rw [subscribedRooms, List.mem_map]
  constructor
  · rintro ⟨⟨channel, joined⟩, hMem, hRoom⟩
    exact ⟨channel, joined, Lib.mem_toList_iff.mp hMem, hRoom⟩
  · rintro ⟨channel, joined, hChannel, hRoom⟩
    exact ⟨(channel, joined), Lib.mem_toList_iff.mpr hChannel, hRoom⟩

theorem mem_subscribedRooms_dropRoom :
    other ∈ (s.dropRoom room).subscribedRooms ↔ other ≠ room ∧ other ∈ s.subscribedRooms := by
  simp only [mem_subscribedRooms, dropRoom, ExtTreeMap.getElem?_filter', Option.filter_eq_some_iff]
  constructor
  · rintro ⟨channel, joined, ⟨hChannel, hKept⟩, rfl⟩
    exact ⟨by simpa using hKept, channel, joined, hChannel, rfl⟩
  · rintro ⟨hOther, channel, joined, hChannel, rfl⟩
    exact ⟨channel, joined, ⟨hChannel, by simpa using hOther⟩, rfl⟩

theorem mem_subscribedRooms_insert {channel : Nat} {joined : JoinedChannel}
    (h : other ∈ ({ s with channels := s.channels.insert channel joined } : Session).subscribedRooms) :
    other = joined.room ∨ other ∈ s.subscribedRooms := by
  obtain ⟨at_, held, hAt, rfl⟩ := mem_subscribedRooms.mp h
  rw [Lib.getElem?_insert_ite] at hAt
  split at hAt
  · cases hAt
    exact .inl rfl
  · exact .inr (mem_subscribedRooms.mpr ⟨at_, held, hAt, rfl⟩)

theorem mem_subscribedRooms_erase {channel : Nat}
    (h : other ∈ ({ s with channels := s.channels.erase channel } : Session).subscribedRooms) :
    other ∈ s.subscribedRooms := by
  obtain ⟨at_, held, hAt, rfl⟩ := mem_subscribedRooms.mp h
  rw [Lib.getElem?_erase_ite] at hAt
  split at hAt
  · cases hAt
  · exact mem_subscribedRooms.mpr ⟨at_, held, hAt, rfl⟩

/-- A session of the governing app reaches the high-water, if there is one. -/
def ReachesHighWater (text : SchemaText μ) (schema : SchemaRegistry) (app : Option Bytes)
    (highWater : Option Nat) (s : Session) : Prop :=
  ∀ client high, app = some s.appId → s.schemaVersion = some client → highWater = some high →
    schema.Reaches text s.appId high client

end Session

theorem subscriberReachesGoverning_iff {schema : SchemaRegistry} {governing : Option (Bytes × Nat)}
    {session : Session} {highWater : Option Nat} :
    subscriberReachesGoverning text schema governing session highWater = true ↔
      session.ReachesHighWater text schema (governing.map Prod.fst) highWater := by
  unfold subscriberReachesGoverning governingTarget Session.ReachesHighWater SchemaRegistry.Reaches
  cases governing with
  | none => simp
  | some binding =>
    cases hVersion : session.schemaVersion with
    | none => simp
    | some client =>
      obtain ⟨app, version⟩ := binding
      by_cases hApp : session.appId = app
      · cases highWater with
        | none => simp
        | some high =>
          simp only [if_true, Option.map_some, hApp, Option.some.injEq, true_implies]
          split
          next hReached => simp [hReached]
          next hFailed => simp [hFailed]
      · have hOther : ∀ name, some app = some name → name ≠ session.appId := by
          rintro name ⟨⟩ rfl
          exact hApp rfl
        simp only [if_neg hApp, Option.map_some, true_iff]
        intro client' high hSame
        exact absurd rfl (hOther _ hSame)

theorem governingTarget_eq_some {governing : Option (Bytes × Nat)} {session : Session} {app : Bytes}
    {version client : Nat} (h : governingTarget governing session = some (app, version, client)) :
    governing = some (app, version) ∧ session.appId = app ∧ session.schemaVersion = some client := by
  unfold governingTarget at h
  cases hBinding : governing with
  | none =>
    rw [hBinding] at h
    cases h
  | some binding =>
    cases hSession : session.schemaVersion with
    | none =>
      rw [hBinding, hSession] at h
      cases h
    | some client' =>
      rw [hBinding, hSession] at h
      dsimp only at h
      split at h
      next hApp =>
        cases h
        exact ⟨rfl, hApp, rfl⟩
      next => cases h

/-- Where every version has a chain, translation drops nothing of its own: each run is handed to its
chain whole. -/
theorem translateDelta_of_chains {schema : SchemaRegistry} {app : Bytes} {target : Nat}
    {delta : List StoredOp} (h : ∀ rec ∈ delta, ∀ version, rec.schemaVersion = some version →
      ∃ chain, schema.resolveChain text app version target = .ok chain) :
    translateDelta (fun _ ops => ops) text schema app target delta = delta.map StoredOp.op := by
  unfold translateDelta
  have hFlat := List.flatten_splitBy (fun a b : StoredOp => decide (a.schemaVersion = b.schemaVersion)) delta
  generalize delta.splitBy (fun a b => decide (a.schemaVersion = b.schemaVersion)) = runs at hFlat ⊢
  subst hFlat
  rw [List.map_flatten, List.flatMap_def]
  congr 1
  refine List.map_congr_left fun run hRun => ?_
  unfold translateRun
  cases hVersion : run.head?.bind StoredOp.schemaVersion with
  | none => rfl
  | some version =>
    obtain ⟨rec, hHead, hRec⟩ := Option.bind_eq_some_iff.mp hVersion
    have hMem : rec ∈ runs.flatten :=
      List.mem_flatten.mpr ⟨run, hRun, List.mem_of_head? hHead⟩
    obtain ⟨chain, hChain⟩ := h rec hMem version hRec
    dsimp only
    rw [hChain]
    split <;> rfl

namespace BoundRegistry

def app (s : BoundRegistry σ) (room : RoomId) : Option Bytes := (s.governingBinding room).map Prod.fst

def Joined (s : BoundRegistry σ) (room : RoomId) (session : Session) : Prop :=
  ∃ id, s.conns id = some session ∧ room ∈ session.subscribedRooms

/-- What holds of a room everyone joined to can be served. -/
structure Serves (text : SchemaText μ) (schema : SchemaRegistry) (app : Option Bytes)
    (highWater : Option Nat) (log : List StoredOp) (joined : Session → Prop) : Prop where
  bound : highWater.isSome → app.isSome
  climbs : ∀ rec ∈ log, ∀ version, rec.schemaVersion = some version →
    ∃ name high, app = some name ∧ highWater = some high ∧ version ≤ high ∧
      schema.Resolves text name version high
  reaches : ∀ session, joined session → session.ReachesHighWater text schema app highWater

/-- The live bindings name the apps the hub's records do, and every room can be served. -/
structure Served (text : SchemaText μ) (s : BoundRegistry σ) : Prop where
  agree : ∀ room binding, s.roomApps room = some binding →
    (s.hub.governing room).map Prod.fst = some binding.1
  rooms : ∀ room, Serves text s.schema (s.app room) (s.hub.maxOpVersion room) (s.hub.log room)
    (s.Joined room)

/-! ### One room -/

namespace Serves

variable {schema schema' : SchemaRegistry} {name : Option Bytes} {name' : Bytes} {high high' version : Option Nat}
  {log log' : List StoredOp} {joined joined' : Session → Prop}

theorem extends_schema (h : Serves text schema name high log joined) (hSchema : schema.Extends schema') :
    Serves text schema' name high log joined where
  bound := h.bound
  climbs rec hRec version hVersion := by
    obtain ⟨app, top, hApp, hTop, hLe, hResolves⟩ := h.climbs rec hRec version hVersion
    exact ⟨app, top, hApp, hTop, hLe, hSchema.resolves hResolves⟩
  reaches session hJoined client top hApp hVersion hTop :=
    hSchema.reaches (h.reaches session hJoined client top hApp hVersion hTop)

theorem joined_of (h : Serves text schema name high log joined)
    (hJoined : ∀ session, joined' session → session.ReachesHighWater text schema name high) :
    Serves text schema name high log joined' := ⟨h.bound, h.climbs, hJoined⟩

/-- An unbound room has no high-water and no tagged op, so any app may bind it. -/
theorem unbound (h : Serves text schema none high log joined) : high = none := by
  cases high with
  | none => rfl
  | some top => exact absurd (h.bound rfl) (by simp)

theorem bind (h : Serves text schema none high log joined) (app : Bytes) :
    Serves text schema (some app) high log joined where
  bound _ := rfl
  climbs rec hRec version hVersion := by
    obtain ⟨app', -, hApp, -⟩ := h.climbs rec hRec version hVersion
    cases hApp
  reaches session _ client top _ _ hTop := by
    rw [h.unbound] at hTop
    cases hTop

theorem ingest (h : Serves text schema name high log joined)
    (hTag : ∀ v, version = some v → ∃ session, joined session ∧ name = some session.appId ∧
      session.schemaVersion = some v)
    (hRaised : high' = high ∨ high' = max high version)
    (hLogged : ∀ rec ∈ log', rec ∈ log ∨ rec.schemaVersion = version ∧ max high' version = high') :
    Serves text schema name high' log' fun _ => False := by
  have hStep : ∀ top, high = some top → ∀ v, version = some v → ∀ app, name = some app →
      (v ≤ top → schema.Resolves text app v top) ∧ (top ≤ v → schema.Resolves text app top v) := by
    intro top hTop v hVersion app hApp
    obtain ⟨session, hJoined, hName, hSession⟩ := hTag v hVersion
    have hReaches := h.reaches session hJoined v top hName hSession hTop
    rw [hApp] at hName
    cases hName
    exact ⟨fun hLe => hReaches.resolves_down hLe, fun hLe => (SchemaRegistry.reaches_up_iff hLe).mp hReaches⟩
  refine ⟨fun hSome => ?_, fun rec hRec v hVersion => ?_, fun _ hFalse => hFalse.elim⟩
  · cases hName : name with
    | some app => rfl
    | none =>
      rw [hName] at h
      cases hTagged : version with
      | none =>
        rw [h.unbound, hTagged] at hRaised
        obtain rfl | rfl := hRaised <;> simp at hSome
      | some v =>
        obtain ⟨session, -, hApp, -⟩ := hTag v hTagged
        rw [hName] at hApp
        cases hApp
  obtain hOld | ⟨hNew, hTop'⟩ := hLogged rec hRec
  · obtain ⟨app, top, hApp, hTop, hLe, hResolves⟩ := h.climbs rec hOld v hVersion
    obtain rfl | rfl := hRaised
    · exact ⟨app, top, hApp, hTop, hLe, hResolves⟩
    cases hTagged : version with
    | none => exact ⟨app, top, hApp, by simp [hTop], hLe, hResolves⟩
    | some w =>
      refine ⟨app, max top w, hApp, by simp [hTop], by omega, ?_⟩
      obtain ⟨-, hUp⟩ := hStep top hTop w hTagged app hApp
      obtain hBelow | hAbove := le_total w top
      · rwa [max_eq_left hBelow]
      · rw [max_eq_right hAbove]
        exact hResolves.trans hLe hAbove (hUp hAbove)
  · rw [hNew] at hVersion
    obtain ⟨session, -, hApp, -⟩ := hTag v hVersion
    cases hTop : high with
    | none =>
      have hExact : high' = some v := by
        rw [← hTop', hVersion]
        obtain rfl | rfl := hRaised <;> simp [hTop, hVersion]
      exact ⟨session.appId, v, hApp, hExact, Nat.le_refl v, .refl v⟩
    | some top =>
      have hExact : high' = some (max top v) := by
        rw [← hTop', hVersion]
        obtain rfl | rfl := hRaised <;> simp [hTop, hVersion]
      refine ⟨session.appId, max top v, hApp, hExact, by omega, ?_⟩
      obtain ⟨hDown, -⟩ := hStep top hTop v hVersion session.appId hApp
      obtain hBelow | hAbove := le_total v top
      · rw [max_eq_left hBelow]
        exact hDown hBelow
      · rw [max_eq_right hAbove]
        exact .refl v

/-- A number carried by a frame, to which every tagged op of the log resolves. -/
theorem raise (h : Serves text schema (some name') high log joined)
    (hRaised : high' = high ∨ high' = max high version)
    (hClimbs : ∀ top, version = some top → (∀ old, high = some old → old < top) →
      ∀ rec ∈ log, ∀ v, rec.schemaVersion = some v → schema.Resolves text name' v top) :
    Serves text schema (some name') high' log fun _ => False := by
  refine ⟨fun _ => rfl, fun rec hRec v hVersion => ?_, fun _ hFalse => hFalse.elim⟩
  obtain ⟨app, old, hApp, hOld, hLe, hResolves⟩ := h.climbs rec hRec v hVersion
  cases hApp
  obtain rfl | rfl := hRaised
  · exact ⟨name', old, rfl, hOld, hLe, hResolves⟩
  cases hNumber : version with
  | none => exact ⟨name', old, rfl, by simp [hOld], hLe, hResolves⟩
  | some top =>
    refine ⟨name', max old top, rfl, by simp [hOld], by omega, ?_⟩
    obtain hBelow | hAbove := Nat.lt_or_ge old top
    · rw [max_eq_right (Nat.le_of_lt hBelow)]
      refine hClimbs top hNumber (fun old' hOld' => ?_) rec hRec v hVersion
      rw [hOld] at hOld'
      cases hOld'
      exact hBelow
    · rwa [max_eq_left hAbove]

end Serves

/-! ### Every room -/

variable {s s' : BoundRegistry σ} {room : RoomId} {pre : Option Nat}

/-- A session stands for one joined before it, of the same app and version. -/
def Stems (joined : Session → Prop) (session : Session) : Prop :=
  ∃ before, joined before ∧ before.appId = session.appId ∧ before.schemaVersion = session.schemaVersion

theorem Serves.reaches_of_stems {schema : SchemaRegistry} {name : Option Bytes} {high : Option Nat}
    {log : List StoredOp} {joined : Session → Prop} (h : Serves text schema name high log joined)
    {session : Session} (hStems : Stems joined session) :
    session.ReachesHighWater text schema name high := by
  obtain ⟨before, hJoined, hApp, hVersion⟩ := hStems
  have hReaches := h.reaches before hJoined
  unfold Session.ReachesHighWater at hReaches ⊢
  rwa [← hApp, ← hVersion]

/-- What one room's change leaves of the others. -/
structure Beside (s s' : BoundRegistry σ) (room : RoomId) : Prop where
  schema : s'.schema = s.schema
  agree : ∀ other, other ≠ room → ∀ binding, s'.roomApps other = some binding →
    (s'.hub.governing other).map Prod.fst = some binding.1
  app : ∀ other, other ≠ room → s'.app other = s.app other
  maxOpVersion : ∀ other, other ≠ room → s'.hub.maxOpVersion other = s.hub.maxOpVersion other
  log : ∀ other, other ≠ room → s'.hub.log other = s.hub.log other
  joined : ∀ other, other ≠ room → ∀ session, s'.Joined other session → Stems (s.Joined other) session

theorem Served.of_beside (h : s.Served text) (hBeside : s.Beside s' room)
    (hAgree : ∀ binding, s'.roomApps room = some binding →
      (s'.hub.governing room).map Prod.fst = some binding.1)
    (hRoom : Serves text s'.schema (s'.app room) (s'.hub.maxOpVersion room) (s'.hub.log room)
      (s'.Joined room)) : s'.Served text where
  agree other binding hBinding := by
    by_cases hOther : other = room
    · subst hOther
      exact hAgree binding hBinding
    · exact hBeside.agree other hOther binding hBinding
  rooms other := by
    by_cases hOther : other = room
    · rwa [hOther]
    · have hServes := h.rooms other
      rw [hBeside.schema, hBeside.app other hOther, hBeside.maxOpVersion other hOther,
        hBeside.log other hOther]
      exact hServes.joined_of fun session hJoined =>
        hServes.reaches_of_stems (hBeside.joined other hOther session hJoined)

/-- A change that leaves the hub's versions and the bindings as they are, and joins nobody. -/
theorem Served.of_same (h : s.Served text) (hSchema : s.schema.Extends s'.schema)
    (hApps : s'.roomApps = s.roomApps) (hHub : s.hub.Alike s'.hub)
    (hJoined : ∀ room session, s'.Joined room session → Stems (s.Joined room) session) :
    s'.Served text where
  agree room binding hBinding := by
    rw [hHub.governing]
    rw [hApps] at hBinding
    exact h.agree room binding hBinding
  rooms room := by
    have hApp : s'.app room = s.app room := by
      rw [app, app, governingBinding, governingBinding, hApps, hHub.governing]
    have hServes := h.rooms room
    rw [hApp, hHub.maxOpVersion, hHub.log]
    exact (hServes.joined_of fun session hSession =>
      hServes.reaches_of_stems (hJoined room session hSession)).extends_schema hSchema

theorem stems_of_joined {other : RoomId} {session : Session} (h : s.Joined other session) :
    Stems (s.Joined other) session := ⟨session, h, rfl, rfl⟩

/-- Between a change of a room's versions and the eviction that follows it: its sessions reach
the high-water before the change. -/
structure Lifting (text : SchemaText μ) (s : BoundRegistry σ) (room : RoomId) (pre : Option Nat) :
    Prop where
  agree : ∀ other binding, s.roomApps other = some binding →
    (s.hub.governing other).map Prod.fst = some binding.1
  elsewhere : ∀ other, other ≠ room → Serves text s.schema (s.app other)
    (s.hub.maxOpVersion other) (s.hub.log other) (s.Joined other)
  tagged : Serves text s.schema (s.app room) (s.hub.maxOpVersion room) (s.hub.log room) fun _ => False
  grown : max pre (s.hub.maxOpVersion room) = s.hub.maxOpVersion room
  reached : ∀ session, s.Joined room session →
    session.ReachesHighWater text s.schema (s.app room) pre

theorem app_of_governing {hub : StoredHub σ} (hGoverning : hub.governing = s.hub.governing)
    (other : RoomId) : ({ s with hub } : BoundRegistry σ).app other = s.app other := by
  rw [app, app, governingBinding, governingBinding, hGoverning]

theorem Served.ingested {hub : StoredHub σ} {version : Option Nat} (h : s.Served text)
    (hIngest : s.hub.Ingested hub room version)
    (hTag : ∀ v, version = some v → ∃ session, s.Joined room session ∧
      s.app room = some session.appId ∧ session.schemaVersion = some v) :
    Lifting text { s with hub } room (s.hub.maxOpVersion room) where
  agree other binding hBinding := by
    rw [hIngest.governing]
    exact h.agree other binding hBinding
  elsewhere other hOther := by
    obtain ⟨hVersion, hLog⟩ := hIngest.elsewhere other hOther
    rw [app_of_governing hIngest.governing, hVersion, hLog]
    exact h.rooms other
  tagged := by
    rw [app_of_governing hIngest.governing]
    exact (h.rooms room).ingest hTag hIngest.raised hIngest.logged
  grown := by
    obtain hSame | hRaised := hIngest.raised
    · rw [hSame]
      cases s.hub.maxOpVersion room <;> simp
    · rw [hRaised]
      cases s.hub.maxOpVersion room <;> cases version <;> simp
  reached session hSession := by
    rw [app_of_governing hIngest.governing]
    exact (h.rooms room).reaches session hSession

theorem Lifting.alike {hub : StoredHub σ} (h : s.Lifting text room pre) (hAlike : s.hub.Alike hub) :
    Lifting text { s with hub } room pre where
  agree other binding hBinding := by
    rw [hAlike.governing]
    exact h.agree other binding hBinding
  elsewhere other hOther := by
    rw [app_of_governing hAlike.governing, hAlike.maxOpVersion, hAlike.log]
    exact h.elsewhere other hOther
  tagged := by
    rw [app_of_governing hAlike.governing, hAlike.maxOpVersion, hAlike.log]
    exact h.tagged
  grown := by
    rw [hAlike.maxOpVersion]
    exact h.grown
  reached session hSession := by
    rw [app_of_governing hAlike.governing]
    exact h.reached session hSession

/-! ### Binding -/

section Binding

variable (s) (room) (name : Bytes) (version : Nat)

/-- The incumbent stands; an unbound room takes the app. -/
theorem bindRoomApp_eq : ∃ bound, bound.1 = (s.app room).getD name ∧
    s.bindRoomApp room name version = { s with
      hub := s.hub.bindGoverning noFaults room bound.1 bound.2
      roomApps := Function.update s.roomApps room (some bound) } := by
  refine ⟨_, ?_, rfl⟩
  rw [app]
  cases s.governingBinding room with
  | none => rfl
  | some binding =>
    dsimp only [Option.map_some, Option.getD_some]
    split
    next hApp => exact hApp.symm
    next => rfl

theorem app_bindRoomApp (other : RoomId) : (s.bindRoomApp room name version).app other =
    if other = room then some ((s.app room).getD name) else s.app other := by
  obtain ⟨bound, hName, hEq⟩ := bindRoomApp_eq s room name version
  rw [hEq, app, governingBinding, StoredHub.governing_bindGoverning]
  dsimp only
  split
  next hOther =>
    rw [hOther, Function.update_self, Option.some_or, Option.map_some, hName]
  next hOther =>
    rw [Function.update_of_ne hOther, Function.update_of_ne hOther]
    rfl

theorem bindRoomApp_versions (other : RoomId) :
    (s.bindRoomApp room name version).hub.maxOpVersion other = s.hub.maxOpVersion other ∧
      (s.bindRoomApp room name version).hub.log other = s.hub.log other := by
  obtain ⟨bound, -, hEq⟩ := bindRoomApp_eq s room name version
  rw [hEq]
  dsimp only
  rw [StoredHub.maxOpVersion, StoredHub.log, StoredHub.rooms_bindGoverning]
  exact ⟨rfl, rfl⟩

theorem agree_bindRoomApp
    (hAgree : ∀ other binding, s.roomApps other = some binding →
      (s.hub.governing other).map Prod.fst = some binding.1)
    (other : RoomId) (binding : Bytes × Nat)
    (hBinding : (s.bindRoomApp room name version).roomApps other = some binding) :
    ((s.bindRoomApp room name version).hub.governing other).map Prod.fst = some binding.1 := by
  obtain ⟨bound, -, hEq⟩ := bindRoomApp_eq s room name version
  rw [hEq] at hBinding ⊢
  dsimp only at hBinding ⊢
  rw [StoredHub.governing_bindGoverning]
  by_cases hOther : other = room
  · subst hOther
    rw [Function.update_self] at hBinding ⊢
    cases hBinding
    rfl
  · rw [Function.update_of_ne hOther] at hBinding ⊢
    exact hAgree other binding hBinding

end Binding

theorem Served.bindRoomApp (h : s.Served text) (room : RoomId) (name : Bytes) (version : Nat) :
    (s.bindRoomApp room name version).Served text where
  agree := agree_bindRoomApp s room name version h.agree
  rooms other := by
    obtain ⟨hVersion, hLog⟩ := bindRoomApp_versions s room name version other
    have hServes := h.rooms other
    rw [app_bindRoomApp, hVersion, hLog]
    split
    next hOther =>
      subst hOther
      cases hApp : s.app other with
      | some app => rwa [hApp] at hServes
      | none =>
        rw [hApp] at hServes
        exact hServes.bind name
    next => exact hServes

theorem Lifting.bindRoomApp (h : s.Lifting text room pre) (name : Bytes) (version : Nat) :
    (s.bindRoomApp room name version).Lifting text room pre := by
  obtain ⟨hVersion, hLog⟩ := bindRoomApp_versions s room name version room
  refine ⟨agree_bindRoomApp s room name version h.agree, fun other hOther => ?_, ?_, ?_, ?_⟩
  · obtain ⟨hVersion, hLog⟩ := bindRoomApp_versions s room name version other
    rw [app_bindRoomApp, if_neg hOther, hVersion, hLog]
    exact h.elsewhere other hOther
  · have hTagged := h.tagged
    rw [app_bindRoomApp, if_pos rfl, hVersion, hLog]
    cases hApp : s.app room with
    | some app => rwa [hApp] at hTagged
    | none =>
      rw [hApp] at hTagged
      exact hTagged.bind name
  · rw [hVersion]
    exact h.grown
  · intro session hSession
    have hReached := h.reached session hSession
    rw [app_bindRoomApp, if_pos rfl]
    cases hApp : s.app room with
    | some app => rwa [hApp] at hReached
    | none =>
      -- An unbound room had no high-water to begin with.
      have hTagged := h.tagged
      have hGrown := h.grown
      rw [hApp] at hTagged
      rw [hTagged.unbound, Option.max_none_right] at hGrown
      intro client high _ _ hHigh
      rw [hGrown] at hHigh
      cases hHigh

/-! ### Eviction -/

theorem joined_evictStranded {highWater : Option Nat} {governing : Bytes × Nat} {other : RoomId}
    {session : Session} (h : (s.evictStranded text room governing highWater).Joined other session) :
    ∃ before, s.Joined other before ∧ before.appId = session.appId ∧
      before.schemaVersion = session.schemaVersion ∧
      (other = room → subscriberReachesGoverning text s.schema (some governing) session highWater) := by
  obtain ⟨id, hConn, hRoom⟩ := h
  obtain ⟨before, hBefore, rfl⟩ := Option.map_eq_some_iff.mp hConn
  split at hRoom
  next hReaches =>
    rw [if_pos hReaches]
    exact ⟨before, ⟨id, hBefore, hRoom⟩, rfl, rfl, fun _ => hReaches⟩
  next hStranded =>
    rw [if_neg hStranded]
    obtain ⟨hOther, hHeld⟩ := Session.mem_subscribedRooms_dropRoom.mp hRoom
    exact ⟨before, ⟨id, hBefore, hHeld⟩, rfl, rfl, fun hSame => absurd hSame hOther⟩

theorem Lifting.served_of_same (h : s.Lifting text room pre) (hSame : s.hub.maxOpVersion room = pre) :
    s.Served text := by
  refine ⟨h.agree, fun other => ?_⟩
  by_cases hOther : other = room
  · subst hOther
    refine h.tagged.joined_of fun session hSession => ?_
    rw [hSame]
    exact h.reached session hSession
  · exact h.elsewhere other hOther

/-- The eviction that follows a lift leaves everyone joined within reach. -/
theorem Lifting.evict (h : s.Lifting text room pre) : (s.evictStrandedByLift text room pre).Served text := by
  unfold evictStrandedByLift
  dsimp only
  split
  next hSame => exact h.served_of_same (h.grown.symm.trans hSame)
  next hLifted =>
    cases hBinding : s.governingBinding room with
    | none =>
      have hApp : s.app room = none := by rw [app, hBinding]; rfl
      have hTagged := h.tagged
      rw [hApp] at hTagged
      have hGrown := h.grown
      rw [hTagged.unbound, Option.max_none_right] at hGrown
      refine absurd ?_ hLifted
      rw [hTagged.unbound, Option.max_none_right]
    | some governing =>
      have hApp : s.app room = some governing.1 := by rw [app, hBinding]; rfl
      refine ⟨h.agree, fun other => ?_⟩
      by_cases hOther : other = room
      · subst hOther
        refine h.tagged.joined_of fun session hSession => ?_
        obtain ⟨-, -, -, -, hReaches⟩ := joined_evictStranded hSession
        rw [hApp]
        exact subscriberReachesGoverning_iff.mp (hReaches rfl)
      · have hServes := h.elsewhere other hOther
        refine hServes.joined_of fun session hSession => ?_
        obtain ⟨before, hBefore, hAppId, hVersion, -⟩ := joined_evictStranded hSession
        exact hServes.reaches_of_stems ⟨before, hBefore, hAppId, hVersion⟩

/-! ### The steps -/

/-- What a frame may carry: its number lifts a room's high-water only where every op the room keeps
at a version of its own resolves up to it. -/
def Climbs (text : SchemaText μ) (schema : SchemaRegistry) (name : Option Bytes) (high : Option Nat)
    (log : List StoredOp) (replicated : ReplicatedMeta) : Prop :=
  ∀ binding top, replicated.governing = some binding → replicated.maxOpVersion = some top →
    name = some binding.1 → (∀ old, high = some old → old < top) →
      ∀ rec ∈ log, ∀ v, rec.schemaVersion = some v → schema.Resolves text binding.1 v top

theorem Lifting.raise {binding : Bytes × Nat} {number : Option Nat} (h : s.Lifting text room pre)
    (hApp : s.app room = some binding.1)
    (hClimbs : ∀ top, number = some top →
      (∀ old, s.hub.maxOpVersion room = some old → old < top) →
      ∀ rec ∈ s.hub.log room, ∀ v, rec.schemaVersion = some v →
        s.schema.Resolves text binding.1 v top) :
    Lifting text { s with hub := s.hub.raiseMaxOpVersion noFaults room number } room pre := by
  obtain ⟨hGoverning, hLog, hElsewhere⟩ := s.hub.raised_raiseMaxOpVersion room number
  have hRaised := s.hub.maxOpVersion_raiseMaxOpVersion_or room number
  generalize s.hub.raiseMaxOpVersion noFaults room number = hub at hGoverning hLog hElsewhere hRaised ⊢
  have hTagged := h.tagged
  rw [hApp] at hTagged
  refine ⟨fun other binding hBinding => ?_, fun other hOther => ?_, ?_, ?_, fun session hSession => ?_⟩
  · rw [hGoverning]
    exact h.agree other binding hBinding
  · rw [app_of_governing hGoverning, hElsewhere other hOther, hLog]
    exact h.elsewhere other hOther
  · rw [app_of_governing hGoverning, hLog, hApp]
    exact hTagged.raise hRaised hClimbs
  · have hGrown := h.grown
    dsimp only
    obtain hSame | hMax := hRaised
    · rw [hSame]
      exact hGrown
    · rw [hMax, ← hGrown]
      cases pre <;> cases s.hub.maxOpVersion room <;> cases number <;> simp
  · rw [app_of_governing hGoverning]
    exact h.reached session hSession

theorem Lifting.adoptReplicatedCreator (h : s.Lifting text room pre) (creator : Option Bytes) :
    (s.adoptReplicatedCreator room creator).Lifting text room pre := by
  cases creator with
  | none => exact h
  | some creator => exact h.alike (.ensureCreator s.hub room creator)

theorem adoptReplicatedCreator_eq (s : BoundRegistry σ) (room : RoomId) (creator : Option Bytes) :
    ∃ hub, s.adoptReplicatedCreator room creator = { s with hub } ∧ s.hub.Alike hub := by
  cases creator with
  | none => exact ⟨s.hub, rfl, .refl s.hub⟩
  | some creator => exact ⟨_, rfl, .ensureCreator s.hub room creator⟩

theorem Lifting.adoptReplicatedBinding (h : s.Lifting text room pre) (governing : Option (Bytes × Nat)) :
    (s.adoptReplicatedBinding room governing).Lifting text room pre := by
  cases governing with
  | none => exact h
  | some binding => exact h.bindRoomApp binding.1 binding.2

theorem adoptReplicatedBinding_versions (s : BoundRegistry σ) (room : RoomId)
    (governing : Option (Bytes × Nat)) :
    (s.adoptReplicatedBinding room governing).schema = s.schema ∧
      (s.adoptReplicatedBinding room governing).hub.maxOpVersion room = s.hub.maxOpVersion room ∧
      (s.adoptReplicatedBinding room governing).hub.log room = s.hub.log room ∧
      ∀ name, s.app room = some name →
        (s.adoptReplicatedBinding room governing).app room = some name := by
  cases governing with
  | none => exact ⟨rfl, rfl, rfl, fun _ => id⟩
  | some binding =>
    obtain ⟨hVersion, hLog⟩ := bindRoomApp_versions s room binding.1 binding.2 room
    refine ⟨rfl, hVersion, hLog, fun name hName => ?_⟩
    change (s.bindRoomApp room binding.1 binding.2).app room = _
    rw [app_bindRoomApp, if_pos rfl, hName]
    rfl

theorem Lifting.adopt {replicated : ReplicatedMeta} (h : s.Lifting text room pre)
    (hClimbs : Climbs text s.schema (s.app room) (s.hub.maxOpVersion room) (s.hub.log room) replicated) :
    (s.adoptReplicatedMeta room replicated).Lifting text room pre := by
  unfold adoptReplicatedMeta
  have hAdopted := (h.adoptReplicatedBinding replicated.governing).adoptReplicatedCreator
    replicated.creator
  obtain ⟨hSchema, hVersion, hLog, hKept⟩ :=
    adoptReplicatedBinding_versions s room replicated.governing
  obtain ⟨hub, hEq, hAlike⟩ := adoptReplicatedCreator_eq
    (s.adoptReplicatedBinding room replicated.governing) room replicated.creator
  rw [hEq] at hAdopted ⊢
  dsimp only
  split
  next hWon =>
    obtain ⟨hBound, hWon⟩ := hWon
    rw [← app] at hBound hWon
    obtain ⟨name, hName⟩ := Option.isSome_iff_exists.mp hBound
    rw [hName] at hWon
    obtain ⟨binding, hFrame, rfl⟩ := Option.map_eq_some_iff.mp hWon.symm
    refine hAdopted.raise hName fun top hTop hBelow rec hRec v hTag => ?_
    dsimp only at hBelow hRec ⊢
    rw [hSchema]
    rw [hAlike.log, hLog] at hRec
    rw [hAlike.maxOpVersion, hVersion] at hBelow
    rw [app_of_governing hAlike.governing] at hName
    -- Nothing a room logs before it is bound has a version.
    obtain ⟨before, -, hBefore, -⟩ := h.tagged.climbs rec hRec v hTag
    rw [hKept before hBefore] at hName
    exact hClimbs binding top hFrame hTop (hBefore.trans hName) hBelow rec hRec v hTag
  next => exact hAdopted

theorem Served.setConn (h : s.Served text) (id : Nat) (session : Option Session)
    (hNew : ∀ joined, session = some joined → ∀ room ∈ joined.subscribedRooms,
      joined.ReachesHighWater text s.schema (s.app room) (s.hub.maxOpVersion room)) :
    (s.setConn id session).Served text := by
  refine ⟨h.agree, fun room => (h.rooms room).joined_of ?_⟩
  rintro joined ⟨other, hConn, hRoom⟩
  by_cases hOther : other = id
  · subst hOther
    dsimp only [BoundRegistry.setConn] at hConn
    rw [Function.update_self] at hConn
    exact hNew joined hConn room hRoom
  · dsimp only [BoundRegistry.setConn] at hConn
    rw [Function.update_of_ne hOther] at hConn
    exact (h.rooms room).reaches joined ⟨other, hConn, hRoom⟩

theorem Served.reaches_of_conn (h : s.Served text) {id : Nat} {session : Session}
    (hConn : s.conns id = some session) (hRoom : room ∈ session.subscribedRooms) :
    session.ReachesHighWater text s.schema (s.app room) (s.hub.maxOpVersion room) :=
  (h.rooms room).reaches session ⟨id, hConn, hRoom⟩

theorem Served.connect (h : s.Served text) (id : Nat) (client : ClientId) (actor name : Bytes)
    (version : Nat) : (s.connect id client actor name version).Served text := by
  have hFresh : ∀ resolved, (s.setConn id (some ⟨client, actor, name, resolved, ∅⟩)).Served text := by
    intro resolved
    refine h.setConn id _ fun joined hJoined room hRoom => ?_
    cases hJoined
    obtain ⟨channel, held, hChannel, -⟩ := Session.mem_subscribedRooms.mp hRoom
    simp at hChannel
  unfold BoundRegistry.connect
  split
  · exact h
  split
  · exact hFresh none
  · exact hFresh _
  · exact h

theorem Served.subscribe (h : s.Served text) (admitted : Bool) (id channel : Nat) (room : RoomId)
    (branch : Bytes) : (s.subscribe text admitted id channel room branch).Served text := by
  unfold BoundRegistry.subscribe
  cases hConn : s.conns id with
  | none => exact h
  | some session =>
    dsimp only
    have hJoined : ∀ session₁ : Session, session₁ = (if (admitted && (session.channels[channel]?).isNone &&
        subscriberReachesGoverning text s.schema (s.governingBinding room) session
          (s.hub.maxOpVersion room)) = true then
        { session with channels := session.channels.insert channel ⟨room, branch⟩ } else session) →
        (s.setConn id (some session₁)).Served text := by
      intro session₁ hSession
      refine h.setConn id _ fun joined hEq other hOther => ?_
      cases hEq
      subst hSession
      split at hOther
      next hAccepted =>
        rw [if_pos hAccepted]
        rw [Bool.and_eq_true_iff] at hAccepted
        have hReaches := subscriberReachesGoverning_iff.mp hAccepted.2
        obtain rfl | hHeld := Session.mem_subscribedRooms_insert hOther
        · exact hReaches
        · have hBefore := h.reaches_of_conn hConn hHeld
          exact hBefore
      next hRefused =>
        rw [if_neg hRefused]
        exact h.reaches_of_conn hConn hOther
    generalize hEq : (if (admitted && (session.channels[channel]?).isNone &&
        subscriberReachesGoverning text s.schema (s.governingBinding room) session
          (s.hub.maxOpVersion room)) = true then
        { session with channels := session.channels.insert channel ⟨room, branch⟩ } else session) = session₁
    have hSet := hJoined session₁ hEq.symm
    split
    · exact hSet
    · split
      · exact hSet.bindRoomApp room _ _
      · exact hSet

theorem Served.unsubscribe (h : s.Served text) (id channel : Nat) :
    (s.unsubscribe id channel).Served text := by
  unfold BoundRegistry.unsubscribe
  split
  · exact h
  next session hConn =>
    refine h.setConn id _ fun joined hEq other hOther => ?_
    cases hEq
    have hBefore := h.reaches_of_conn hConn (Session.mem_subscribedRooms_erase (s := session) hOther)
    exact hBefore

section Folds

variable [Folds σ]

/-- A write is tagged only with the version of a joined session of the governing app. -/
theorem Served.deliverOps {d : Installation σ μ} (h : s.Served d.text) (id channel : Nat)
    (ops : List Op) : (s.deliverOps d id channel ops).Served d.text := by
  unfold BoundRegistry.deliverOps
  cases hConn : s.conns id with
  | none => exact h
  | some session =>
    dsimp only
    cases hChannel : session.channels[channel]? with
    | none => exact h
    | some joined =>
      dsimp only
      generalize hVersion : (governingTarget (s.governingBinding joined.room) session).map
        (fun target => target.2.2) = version
      have hIngest := s.hub.ingested_handleOps d.derive d.gates
        ⟨session.actor, session.client, channel, joined.room, joined.branch, ops, version⟩
      have hLifting := h.ingested hIngest fun v hTag => ?_
      · generalize (s.hub.handleOps d.derive d.gates noFaults _).2 = hub at hLifting
        split
        · exact hLifting.evict
        · split
          · exact (hLifting.bindRoomApp _ _).evict
          · exact hLifting.evict
      · dsimp only at hTag ⊢
        rw [hTag] at hVersion
        obtain ⟨⟨name, number, client⟩, hTarget, rfl⟩ := Option.map_eq_some_iff.mp hVersion
        refine ⟨session, ⟨id, hConn, Session.mem_subscribedRooms.mpr ⟨channel, joined, hChannel, rfl⟩⟩, ?_⟩
        obtain ⟨hBinding, hApp, hSession⟩ := governingTarget_eq_some hTarget
        exact ⟨by rw [app, hBinding, hApp]; rfl, hSession⟩

theorem Served.applyReplicate (h : s.Served text) (ops : List Op) (replicated : ReplicatedMeta)
    (hClimbs : Climbs text s.schema (s.app room) (s.hub.maxOpVersion room)
      ((s.hub.ingest noFaults room ops none).2.log room) replicated) :
    (s.applyReplicate text room ops replicated).Served text := by
  have hIngest := s.hub.ingested_ingest room ops none
  have hLifting := h.ingested hIngest (by simp)
  have hHigh : (s.hub.ingest noFaults room ops none).2.maxOpVersion room = s.hub.maxOpVersion room := by
    obtain hSame | hSame := hIngest.raised
    · exact hSame
    · rwa [Option.max_none_right] at hSame
  have hApp := app_of_governing (s := s) hIngest.governing room
  unfold BoundRegistry.applyReplicate
  cases hEq : s.hub.ingest noFaults room ops none with
  | mk result hub =>
    rw [hEq] at hLifting hHigh hClimbs hApp
    cases result with
    | error e => exact hLifting.served_of_same hHigh
    | ok landed =>
      refine (hLifting.adopt ?_).evict
      dsimp only at hHigh hClimbs hApp ⊢
      rwa [hApp, hHigh]

omit [Folds σ] in
theorem Served.applyReplicateSnapshot (h : s.Served text) (state : Option (DocState σ)) (seq : Nat)
    (history : List StoredOp) (replicated : ReplicatedMeta) :
    (s.applyReplicateSnapshot text room state seq history replicated).Served text := by
  unfold BoundRegistry.applyReplicateSnapshot
  obtain hEq | ⟨hub, hEq, hIngest, hLog⟩ :=
    s.hub.ingested_installSnapshot room state seq replicated.creator history
  · rw [hEq]
    exact h
  · rw [hEq]
    refine ((h.ingested hIngest (by simp)).adopt ?_).evict
    intro binding top _ _ _ _ rec hRec
    rw [hLog] at hRec
    cases hRec

/-- Whoever joined the target of a clone reaches the high-water it takes from the source. -/
def Receives (text : SchemaText μ) (s : BoundRegistry σ) (source target : RoomId) : Prop :=
  s.hub.holdsRoom source = true → s.hub.holdsRoom target = false →
    ∀ binding, s.hub.governing source = some binding → ∀ session, s.Joined target session →
      session.ReachesHighWater text s.schema (some binding.1) (s.hub.maxOpVersion source)

omit [Folds σ] in
theorem Served.cloneRoom {source target : RoomId} (h : s.Served text)
    (hReceives : Receives text s source target) : (s.cloneRoom source target).Served text := by
  unfold BoundRegistry.cloneRoom
  obtain hEq | ⟨hub, hEq, hCloned⟩ := s.hub.cloned_cloneRoom source target
  · rw [hEq]
    exact h
  rw [hEq]
  have hBound : hub.governing target = s.hub.governing source := by
    rw [hCloned.governing, Function.update_self]
  have hApp : (⟨hub, s.schema, Function.update s.roomApps target (hub.governing target), s.conns⟩ :
      BoundRegistry σ).app target = (s.hub.governing source).map Prod.fst := by
    rw [app, governingBinding]
    dsimp only
    rw [Function.update_self, hBound, Option.or_self]
  have hBeside : Beside s ⟨hub, s.schema, Function.update s.roomApps target (hub.governing target),
      s.conns⟩ target := by
    refine ⟨rfl, fun other hOther binding hBinding => ?_, fun other hOther => ?_,
      fun other hOther => (hCloned.elsewhere other hOther).1,
      fun other hOther => (hCloned.elsewhere other hOther).2,
      fun other _ session hSession => stems_of_joined hSession⟩
    · dsimp only at hBinding ⊢
      rw [Function.update_of_ne hOther] at hBinding
      rw [hCloned.governing, Function.update_of_ne hOther]
      exact h.agree other binding hBinding
    · rw [app, app, governingBinding, governingBinding]
      dsimp only
      rw [hCloned.governing, Function.update_of_ne hOther, Function.update_of_ne hOther]
  refine h.of_beside hBeside (fun binding hBinding => ?_) ⟨fun hSome => ?_, fun rec hRec => ?_,
    fun session hSession => ?_⟩
  · dsimp only at hBinding ⊢
    rw [Function.update_self] at hBinding
    rw [hBinding]
    rfl
  · rw [hApp]
    rw [hCloned.maxOpVersion] at hSome
    cases hGoverning : s.hub.governing source with
    | none =>
      rw [hGoverning] at hSome
      cases hSome
    | some binding => rfl
  · rw [hCloned.log] at hRec
    cases hRec
  · rw [hApp, hCloned.maxOpVersion]
    have hFree : s.hub.holdsRoom target = false := by rw [StoredHub.holdsRoom, hCloned.free]; rfl
    cases hGoverning : s.hub.governing source with
    | none =>
      intro client high hNone
      cases hNone
    | some binding => exact hReceives hCloned.held hFree binding hGoverning session hSession

/-- An event that leaves everyone joined within reach: a frame's number is one its room's log
climbs to, and whoever joined the target of a clone reaches what it takes. -/
def Safe (d : Installation σ μ) (s : BoundRegistry σ) (e : BoundEvent σ) : Prop :=
  match e with
  | .replicate room ops replicated => d.admits s e = true →
    Climbs d.text s.schema (s.app room) (s.hub.maxOpVersion room)
      ((s.hub.ingest noFaults room ops none).2.log room) replicated
  | .cloneRoom _ source target => d.admits s e = true → Receives d.text s source target
  | _ => True

theorem Served.step {d : Installation σ μ} (h : s.Served d.text) (e : BoundEvent σ)
    (hSafe : s.Safe d e) : (s.step d e).Served d.text := by
  cases e with
  | register name version schema migration =>
    exact h.of_same (SchemaRegistry.register_extends d.text s.schema name version schema migration)
      rfl (.refl _) fun _ _ hSession => stems_of_joined hSession
  | connect id client actor name version => exact h.connect id client actor name version
  | disconnect id => exact h.setConn id none (by rintro _ ⟨⟩)
  | subscribe id channel room branch => exact h.subscribe _ id channel room branch
  | unsubscribe id channel => exact h.unsubscribe id channel
  | ops id channel ops => exact h.deliverOps id channel ops
  | forkBranch id room new source position =>
    unfold BoundRegistry.step
    dsimp only
    split
    · exact h.of_same (fun _ _ _ hEdge => hEdge) rfl (.mutateBranches _ _ _)
        fun _ _ hSession => stems_of_joined hSession
    · exact h
  | cloneRoom id source target =>
    unfold BoundRegistry.step
    dsimp only
    split
    next hAdmits => exact h.cloneRoom (hSafe hAdmits)
    next => exact h
  | replicate room ops replicated =>
    unfold BoundRegistry.step
    dsimp only
    split
    next hAdmits => exact h.applyReplicate ops replicated (hSafe hAdmits)
    next => exact h
  | replicateSnapshot room state seq history replicated =>
    unfold BoundRegistry.step
    dsimp only
    split
    · exact h.applyReplicateSnapshot state seq history replicated
    · exact h

def SafeRun (d : Installation σ μ) : BoundRegistry σ → List (BoundEvent σ) → Prop
  | _, [] => True
  | s, e :: events => s.Safe d e ∧ SafeRun d (s.step d e) events

theorem Served.run {d : Installation σ μ} {events : List (BoundEvent σ)} (h : s.Served d.text)
    (hSafe : SafeRun d s events) : (s.run d events).Served d.text := by
  induction events generalizing s with
  | nil => exact h
  | cons e events ih => exact ih (h.step e hSafe.1) hSafe.2

omit [Folds σ] in
theorem served_new (text : SchemaText μ) (server : ClientId) (content : σ) (threshold : Nat) :
    (new server content threshold).Served text where
  agree _ _ hBinding := by cases hBinding
  rooms room := by
    refine ⟨fun hSome => ?_, fun rec hRec => ?_, fun session hSession => ?_⟩
    · cases hSome
    · cases hRec
    · obtain ⟨id, hConn, -⟩ := hSession
      cases hConn

/-- In every state of a run whose events are safe, a joined session reaches the high-water of its
room; and where it speaks for the governing app, every op of the log has a chain to its version, so
a catch-up from any position drops no op for want of one. -/
theorem subscribers_served (d : Installation σ μ) (server : ClientId) (content : σ) (threshold : Nat)
    (events : List (BoundEvent σ)) (hSafe : SafeRun d (new server content threshold) events)
    (room : RoomId) (session : Session)
    (hJoined : ((new server content threshold).run d events).Joined room session) :
    let s := (new server content threshold).run d events
    subscriberReachesGoverning d.text s.schema (s.governingBinding room) session
        (s.hub.maxOpVersion room) = true ∧
      ∀ name number client,
        governingTarget (s.governingBinding room) session = some (name, number, client) →
          (∀ rec ∈ s.hub.log room, ∀ version, rec.schemaVersion = some version →
            ∃ chain, s.schema.resolveChain d.text name version client = .ok chain) ∧
          ∀ position, translateDelta (fun _ ops => ops) d.text s.schema name client
            ((s.hub.log room).drop position) = ((s.hub.log room).drop position).map StoredOp.op := by
  intro s
  have hServed : s.Served d.text := (served_new d.text server content threshold).run hSafe
  have hServes := hServed.rooms room
  have hReaches := hServes.reaches session hJoined
  refine ⟨subscriberReachesGoverning_iff.mpr hReaches, fun name number client hTarget => ?_⟩
  obtain ⟨hBinding, hApp, hClient⟩ := governingTarget_eq_some hTarget
  have hChains : ∀ rec ∈ s.hub.log room, ∀ version, rec.schemaVersion = some version →
      ∃ chain, s.schema.resolveChain d.text name version client = .ok chain := by
    intro rec hRec version hVersion
    obtain ⟨name', high, hName, hHigh, hLe, hResolves⟩ := hServes.climbs rec hRec version hVersion
    have hSame : s.app room = some name := by rw [app, hBinding]; rfl
    rw [hSame] at hName
    cases hName
    have hTop := hReaches client high (by rw [hSame, hApp]) hClient hHigh
    rw [hApp] at hTop
    exact SchemaRegistry.exists_resolveChain_iff.mpr (.of_resolves hLe hResolves hTop)
  exact ⟨hChains, fun position => translateDelta_of_chains fun rec hRec =>
    hChains rec (List.mem_of_mem_drop hRec)⟩

end Folds

section Witness

local instance reachIdBytes : IdBytes := IdBytes.spelled

/-- A schema `c` whose root is a map, at a version of one digit. -/
private def reachSchema (version : UInt8) : Bytes :=
  [123, 34, 115, 99, 104, 101, 109, 97, 34, 58, 34, 99, 34, 44, 34, 118, 101, 114, 115, 105, 111,
    110, 34, 58, version, 44, 34, 114, 111, 111, 116, 34, 58, 34, 82, 34, 44, 34, 116, 121, 112,
    101, 115, 34, 58, 123, 34, 82, 34, 58, 123, 34, 107, 105, 110, 100, 34, 58, 34, 109, 97, 112,
    34, 125, 125, 125]

/-- The edge from version 1 to 2, with no steps. -/
private def reachEdge : Bytes :=
  [123, 34, 102, 114, 111, 109, 34, 58, 49, 44, 34, 116, 111, 34, 58, 50, 44, 34, 115, 116, 101,
    112, 115, 34, 58, 91, 93, 125]

private def reachHash (version : Nat) (migration : Bytes) : Bytes :=
  if version = 1 then
    [199, 109, 196, 171, 231, 124, 59, 174, 206, 93, 160, 26, 60, 10, 183, 223, 2, 66, 78, 44, 170,
      168, 133, 229, 8, 111, 219, 241, 253, 245, 179, 102]
  else if migration = reachEdge then
    [222, 238, 136, 3, 160, 179, 108, 92, 240, 253, 44, 83, 137, 195, 164, 81, 5, 58, 119, 160, 86,
      220, 59, 199, 110, 219, 161, 1, 242, 161, 74, 124]
  else
    [134, 9, 90, 125, 11, 88, 252, 103, 76, 208, 99, 128, 207, 26, 98, 224, 173, 178, 164, 218, 131,
      111, 119, 90, 38, 72, 130, 159, 88, 56, 244, 127]

private def reachInstallation : Installation Content Unit where
  text :=
    ⟨fun _ => some [], fun bytes => if bytes = reachEdge then some () else none, fun _ => true,
      fun version _ migration => reachHash version migration⟩
  derive client _ := client
  gates := ⟨fun _ _ => none, fun _ _ => none, fun _ _ => none⟩
  admits _ _ := true

private def reachOp (client : ClientId) (seq : Nat) : Op :=
  ⟨⟨client, seq⟩, ⟨seq + 1, client, 0⟩, ROOT_ID, .mapSet [97] (.int seq), none, none⟩

/-- Two versions of one app, and a client of each. -/
private def reachStart (edge : Bytes) : List (BoundEvent Content) :=
  [.register [99] 1 (reachSchema 49) [], .register [99] 2 (reachSchema 50) edge,
    .connect 0 ⟨1⟩ [65] [99] 1, .connect 1 ⟨2⟩ [66] [99] 2]

private def servedEvents : List (BoundEvent Content) :=
  reachStart reachEdge ++ [.subscribe 0 0 [114] MAIN_BRANCH, .subscribe 1 0 [114] MAIN_BRANCH,
    .ops 0 0 [reachOp ⟨1⟩ 0], .ops 1 0 [reachOp ⟨2⟩ 0], .cloneRoom 1 [120] [121],
    .replicate [122] [reachOp ⟨3⟩ 0] ⟨none, none, none⟩]

private def servedRegistry : BoundRegistry Content :=
  (new ⟨9⟩ Content.new 0).run reachInstallation servedEvents

private def servedSession : Session := (servedRegistry.conns 0).get (by decide +kernel)

theorem subscribers_served_across_versions :
    ((servedRegistry.hub.log [114]).map StoredOp.schemaVersion = [some 1, some 2]) ∧
      translateDelta (fun _ ops => ops) reachInstallation.text servedRegistry.schema [99] 1
        ((servedRegistry.hub.log [114]).drop 0) =
          ((servedRegistry.hub.log [114]).drop 0).map StoredOp.op := by
  have hSafe : SafeRun reachInstallation (new ⟨9⟩ Content.new 0) servedEvents := by
    refine ⟨trivial, trivial, trivial, trivial, trivial, trivial, trivial, trivial, ?_, ?_, trivial⟩
    · intro _ hHeld
      exact absurd hHeld (by decide +kernel)
    · intro _ binding top hGoverning
      cases hGoverning
  have hJoined : servedRegistry.Joined [114] servedSession :=
    ⟨0, (Option.some_get _).symm, by decide +kernel⟩
  have hServed := subscribers_served reachInstallation ⟨9⟩ Content.new 0 servedEvents hSafe [114]
    servedSession hJoined
  exact ⟨by decide +kernel, (hServed.2 [99] 2 1 (by decide +kernel)).2 0⟩

/-- The second client writes at version 2, which no edge leads down from, and clones its room into
the one the first client joined before anything was there; then it writes to the clone. -/
private def strandedRegistry : BoundRegistry Content :=
  (new ⟨9⟩ Content.new 0).run reachInstallation (reachStart [] ++
    [.subscribe 0 0 [114] MAIN_BRANCH, .subscribe 1 0 [115] MAIN_BRANCH, .ops 1 0 [reachOp ⟨2⟩ 0],
      .cloneRoom 1 [115] [114], .unsubscribe 1 0, .subscribe 1 0 [114] MAIN_BRANCH,
      .ops 1 0 [reachOp ⟨2⟩ 1]])

/-- The first client is still joined, does not reach the high-water, and is served nothing of the
log: its one op has no chain to the client's version. -/
theorem clone_strands_joined_session :
    ((strandedRegistry.conns 0).any fun session => decide ([114] ∈ session.subscribedRooms) &&
        !subscriberReachesGoverning reachInstallation.text strandedRegistry.schema
          (strandedRegistry.governingBinding [114]) session
          (strandedRegistry.hub.maxOpVersion [114])) = true ∧
      (strandedRegistry.hub.log [114]).map StoredOp.schemaVersion = [some 2] ∧
      (strandedRegistry.schema.resolveChain reachInstallation.text [99] 2 1).toOption.isNone = true ∧
      translateDelta (fun _ ops => ops) reachInstallation.text strandedRegistry.schema [99] 1
        (strandedRegistry.hub.log [114]) = [] := by
  decide +kernel

end Witness

end BoundRegistry

end Server

end CrdtSync
