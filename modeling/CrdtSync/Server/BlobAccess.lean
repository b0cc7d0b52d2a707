import CrdtSync.Core.Diff
import CrdtSync.Lib.TreeWalk
import CrdtSync.Server.Authz
import CrdtSync.Server.BlobRuns

/-!
# Who may fetch a blob

A blob's bytes never change and its handle is no secret of a room, so authority is that of the
places that refer to it: a fetch is answered where its caller may read one live reference, at the
path the ops of that place are read at.
-/

namespace CrdtSync.Server.BlobAccess

open Lib Blobs StoreFiles

/-- A node of the walk: an element, or a half of an XML node. -/
inductive Node
  | elem (e : Element)
  | attrs (id : ElementId)
  | children (kind : ElementKind) (id : ElementId)

abbrev Site := Node × List Bytes

/-- The id a node is indexed by. A leaf has none. -/
def Node.id : Node → Option ElementId
  | .elem (.handle kind id) => if kind.isContainer then some id else none
  | .elem _ => none
  | .attrs id => some (XmlElement.attrsId id)
  | .children _ id => some (XmlElement.childrenId id)

def Node.halves : Node → List Node
  | .elem (.handle .xmlElement id) => [.attrs id, .children .xmlElement id]
  | .elem (.handle .xmlFragment id) => [.children .xmlFragment id]
  | _ => []

section Walks

variable (c : Content)

def Node.slots : Node → List (Bytes × Element)
  | .elem (.handle .map id) => (c.mapOf id).entries
  | .attrs id => (c.attrsOf id).entries
  | _ => []

def Node.items : Node → List Element
  | .elem (.handle .list id) => (c.listOf id).values
  | .children kind id => (c.childrenOf kind id).values
  | _ => []

/-- What a node's slots hold, each at its leaf path. -/
def slotSites (site : Site) : List (Element × List Bytes) :=
  (site.1.slots c).map fun slot => (slot.2, site.2 ++ [slot.1])

/-- What is addressed by a node is read at the path of what holds it. -/
def itemSites (site : Site) : List (Element × List Bytes) :=
  (site.1.items c).map fun item => (item, site.2)

def below (site : Site) : List Site :=
  ((slotSites c site ++ itemSites c site).filter fun child => child.1.isContainer).map
      (fun child => (.elem child.1, child.2)) ++
    site.1.halves.map fun half => (half, site.2)

def indexContainer : TreeWalk Site (ElementId × List Bytes) where
  below := below c
  emit site := site.1.id.toList.map fun id => (id, site.2)

def scalarBlob : Scalar → Option Uuid
  | .blobRef r => some r.id
  | _ => none

/-- The reference in a map slot, bare or in a register. -/
def slotBlob (child : Element × List Bytes) : Option (Uuid × List Bytes) :=
  ((Diff.scalarOf child.1).bind scalarBlob).map fun id => (id, child.2)

def itemBlob : Element × List Bytes → Option (Uuid × List Bytes)
  | (.scalar value, path) => (scalarBlob value).map fun id => (id, path)
  | _ => none

/-- The walk that maps each reference to its path. -/
def indexBlobRefs : TreeWalk Site (Uuid × List Bytes) where
  below := below c
  emit site := (slotSites c site).filterMap slotBlob ++ (itemSites c site).filterMap itemBlob

def rootSite : Site := (.elem (.handle .map ROOT_ID), [])

/-- Where a container is met twice the last path counts. -/
def elementPaths (fuel : Nat) : Option ElementIndex :=
  ((indexContainer c).walk fuel rootSite).map fun visits id =>
    (visits.reverse.find? fun visit => visit.1 = id).map Prod.snd

def blobRefPaths (fuel : Nat) (id : Uuid) : Option (List Bytes) :=
  ((indexBlobRefs c).walk fuel rootSite).map fun refs =>
    (((refs.filter fun ref => ref.1 = id).map fun ref => encodePath ref.2).insertionSort
      (· ≤ ·)).dedup

/-- A live reference to a blob, at the path it is read at. -/
def Refers (id : Uuid) (path : List Bytes) : Prop :=
  ∃ site, (indexBlobRefs c).Reaches rootSite site ∧ (id, path) ∈ (indexBlobRefs c).emit site

end Walks

/-- What a fetch reads of a room. -/
structure FetchRoom where
  id : Bytes
  content : Content
  records : List AclRecord
  creator : Option Bytes
  schema : Option Schema

section Fetch

variable (actorKey : Bytes → ClientId) (deployment : Authorizer) (rooms : List FetchRoom)

def FetchRoom.admits (room : FetchRoom) (fuel : Nat) (identity : Identity) (id : Uuid) :
    Option Bool := do
  let paths ← blobRefPaths room.content fuel id
  if paths.isEmpty then some false
  else
    let index ← elementPaths room.content fuel
    some (paths.any fun path => recipientReadsPath actorKey deployment room.records room.creator index
      room.schema identity room.id path)

/-- Every room is looked through, and the first readable reference grants. -/
def authorizeBlobFetch (fuel : Nat) (identity : Identity) (id : Uuid) : Option Bool :=
  rooms.anyM fun room => room.admits actorKey deployment fuel identity id

inductive FetchResponse
  | ok (bytes : Bytes)
  | badRequest
  | unauthorized
  | forbidden
  | notFound
  | internalServerError
deriving DecidableEq

/-- `GET /blobs/{id}`, for the identity the credential was verified to. The gate is checked on the
parsed id before the store is touched. -/
def blobFetch (mayReadBlob : Identity → Uuid → Bool) (disk : Disk) (index : Index)
    (identity : Option Identity) (id : FileName) : FetchResponse :=
  match identity with
  | none => .unauthorized
  | some identity =>
    match parseUuid id with
    | none => .badRequest
    | some id =>
      if !mayReadBlob identity id then .forbidden
      else
        match get disk index id with
        | .ok (some bytes) => .ok bytes
        | .ok none => .notFound
        | .error _ => .internalServerError

end Fetch

section Walks

variable {c : Content} {fuel : Nat}

theorem elementPaths_spec {index : ElementIndex} (h : elementPaths c fuel = some index)
    (id : ElementId) :
    (∀ path, index id = some path →
      ∃ site, (indexContainer c).Reaches rootSite site ∧ site.1.id = some id ∧ site.2 = path) ∧
      ∀ site, (indexContainer c).Reaches rootSite site → site.1.id = some id →
        (index id).isSome := by
  obtain ⟨visits, hVisits, rfl⟩ := Option.map_eq_some_iff.mp h
  constructor
  · intro path hPath
    obtain ⟨visit, hFind, rfl⟩ := Option.map_eq_some_iff.mp hPath
    have hIn := List.mem_reverse.mp (List.mem_of_find?_eq_some hFind)
    obtain ⟨site, hReaches, hEmit⟩ := (TreeWalk.mem_walk_iff hVisits).mp hIn
    obtain ⟨own, hOwn, rfl⟩ := List.mem_map.mp hEmit
    have hId : own = id := by simpa using List.find?_some hFind
    exact ⟨site, hReaches, hId ▸ Option.mem_toList.mp hOwn, rfl⟩
  · intro site hReaches hId
    have hIn : (id, site.2) ∈ visits := (TreeWalk.mem_walk_iff hVisits).mpr
      ⟨site, hReaches, List.mem_map.mpr ⟨id, Option.mem_toList.mpr hId, rfl⟩⟩
    rw [Option.isSome_map, List.find?_isSome]
    exact ⟨(id, site.2), List.mem_reverse.mpr hIn, decide_eq_true rfl⟩

theorem mem_blobRefPaths {id : Uuid} {paths : List Bytes} (h : blobRefPaths c fuel id = some paths)
    (path : Bytes) : path ∈ paths ↔ ∃ keys, Refers c id keys ∧ encodePath keys = path := by
  obtain ⟨refs, hRefs, rfl⟩ := Option.map_eq_some_iff.mp h
  rw [List.mem_dedup, List.mem_insertionSort, List.mem_map]
  constructor
  · rintro ⟨⟨own, keys⟩, hRef, rfl⟩
    obtain ⟨hIn, hOwn⟩ := List.mem_filter.mp hRef
    obtain rfl : own = id := of_decide_eq_true hOwn
    exact ⟨keys, (TreeWalk.mem_walk_iff hRefs).mp hIn, rfl⟩
  · rintro ⟨keys, hRefers, rfl⟩
    exact ⟨(id, keys), List.mem_filter.mpr
      ⟨(TreeWalk.mem_walk_iff hRefs).mpr hRefers, decide_eq_true rfl⟩, rfl⟩

/-- A document that is not nested in itself is walked to its end, whichever walk it is. -/
theorem exists_walks (h : Acc (indexContainer c).Below rootSite) :
    ∃ fuel, ∀ more, fuel ≤ more →
      (∃ index, elementPaths c more = some index) ∧
        ∀ id, ∃ paths, blobRefPaths c more id = some paths := by
  obtain ⟨fuel, visits, hVisits⟩ := TreeWalk.exists_walk h
  obtain ⟨fuel', refs, hRefs⟩ := (indexBlobRefs c).exists_walk (w := rootSite) h
  refine ⟨max fuel fuel', fun more hMore => ⟨?_, fun id => ?_⟩⟩
  · exact ⟨_, Option.map_eq_some_iff.mpr
      ⟨visits, TreeWalk.walk_mono ((le_max_left ..).trans hMore) hVisits, rfl⟩⟩
  · exact ⟨_, Option.map_eq_some_iff.mpr
      ⟨refs, TreeWalk.walk_mono ((le_max_right ..).trans hMore) hRefs, rfl⟩⟩

end Walks

section Fetch

variable {actorKey : Bytes → ClientId} {deployment : Authorizer} {rooms : List FetchRoom}

/-- The identity may read a live reference to the blob in one of the rooms. -/
def Readable (actorKey : Bytes → ClientId) (deployment : Authorizer) (rooms : List FetchRoom)
    (fuel : Nat) (identity : Identity) (id : Uuid) : Prop :=
  ∃ room ∈ rooms, ∃ keys, Refers room.content id keys ∧
    ∃ index, elementPaths room.content fuel = some index ∧
      recipientReadsPath actorKey deployment room.records room.creator index room.schema identity
        room.id (encodePath keys) = true

theorem admits_iff {room : FetchRoom} {fuel : Nat} {index : ElementIndex}
    (hIndex : elementPaths room.content fuel = some index) {id : Uuid} {paths : List Bytes}
    (hPaths : blobRefPaths room.content fuel id = some paths) (identity : Identity) :
    ∃ answer, room.admits actorKey deployment fuel identity id = some answer ∧
      (answer = true ↔ ∃ keys, Refers room.content id keys ∧
        ∃ index, elementPaths room.content fuel = some index ∧
          recipientReadsPath actorKey deployment room.records room.creator index room.schema identity
            room.id (encodePath keys) = true) := by
  unfold FetchRoom.admits
  rw [hPaths, hIndex]
  dsimp only [Option.bind_eq_bind, Option.bind_some]
  split
  next hEmpty =>
    refine ⟨false, rfl, iff_of_false Bool.false_ne_true ?_⟩
    rintro ⟨keys, hRefers, -⟩
    have hIn := (mem_blobRefPaths hPaths _).mpr ⟨keys, hRefers, rfl⟩
    rw [List.isEmpty_iff.mp hEmpty] at hIn
    cases hIn
  next =>
    refine ⟨_, rfl, ?_⟩
    rw [List.any_eq_true]
    constructor
    · rintro ⟨path, hPath, hReads⟩
      obtain ⟨keys, hRefers, rfl⟩ := (mem_blobRefPaths hPaths path).mp hPath
      exact ⟨keys, hRefers, index, rfl, hReads⟩
    · rintro ⟨keys, hRefers, other, hOther, hReads⟩
      cases hOther
      exact ⟨encodePath keys, (mem_blobRefPaths hPaths _).mpr ⟨keys, hRefers, rfl⟩, hReads⟩

theorem exists_anyM {α : Type} {f : α → Option Bool} {P : α → Prop} {as : List α}
    (h : ∀ a ∈ as, ∃ b, f a = some b ∧ (b = true ↔ P a)) :
    ∃ b, as.anyM f = some b ∧ (b = true ↔ ∃ a ∈ as, P a) := by
  induction as with
  | nil => exact ⟨false, rfl, by simp⟩
  | cons a as ih =>
    obtain ⟨b, hHead, hP⟩ := h a List.mem_cons_self
    obtain ⟨b', hTail, hRest⟩ := ih fun other hOther => h other (List.mem_cons_of_mem _ hOther)
    rw [List.anyM, hHead]
    cases b with
    | true => exact ⟨true, rfl, by simpa using .inl (hP.mp rfl)⟩
    | false =>
      refine ⟨b', hTail, hRest.trans ?_⟩
      have hNot : ¬P a := fun hHolds => Bool.false_ne_true (hP.mpr hHolds)
      simp [hNot]

theorem exists_fuel (hEnds : ∀ room ∈ rooms, Acc (indexContainer room.content).Below rootSite) :
    ∃ fuel, ∀ more, fuel ≤ more → ∀ room ∈ rooms,
      (∃ index, elementPaths room.content more = some index) ∧
        ∀ id, ∃ paths, blobRefPaths room.content more id = some paths := by
  induction rooms with
  | nil => exact ⟨0, fun _ _ _ hRoom => by cases hRoom⟩
  | cons room rooms ih =>
    obtain ⟨fuel, hFuel⟩ := exists_walks (hEnds room List.mem_cons_self)
    obtain ⟨fuel', hFuel'⟩ := ih fun other hOther => hEnds other (List.mem_cons_of_mem _ hOther)
    refine ⟨max fuel fuel', fun more hMore other hOther => ?_⟩
    rcases List.mem_cons.mp hOther with rfl | hOther
    · exact hFuel more ((le_max_left ..).trans hMore)
    · exact hFuel' more ((le_max_right ..).trans hMore) other hOther

/-- The fetch gate says whether the identity may read a live reference. -/
theorem authorizeBlobFetch_iff (actorKey : Bytes → ClientId) (deployment : Authorizer)
    (hEnds : ∀ room ∈ rooms, Acc (indexContainer room.content).Below rootSite) :
    ∃ fuel, ∀ more, fuel ≤ more → ∀ identity id,
      ∃ answer, authorizeBlobFetch actorKey deployment rooms more identity id = some answer ∧
        (answer = true ↔ Readable actorKey deployment rooms more identity id) := by
  obtain ⟨fuel, hFuel⟩ := exists_fuel hEnds
  refine ⟨fuel, fun more hMore identity id => exists_anyM fun room hRoom => ?_⟩
  obtain ⟨⟨index, hIndex⟩, hPaths⟩ := hFuel more hMore room hRoom
  obtain ⟨paths, hPaths⟩ := hPaths id
  exact admits_iff hIndex hPaths identity

variable [ContentSha] {held : Set Bytes} {s : State} {index : Index}

end Fetch

section Examples

local instance fetchSha : ContentSha := spelledSha

/-- A document with one slot, which refers to a blob. -/
def picture : Content :=
  { Content.new with
    maps := (Content.new.maps).insert ROOT_ID
      { LwwMap.new ROOT_ID with
        slots := (LwwMap.new ROOT_ID).slots.insert [112]
          ⟨⟨1, ⟨1⟩, 0⟩, some (.scalar (.blobRef ⟨7, [], 2, none⟩)), none⟩ } }

theorem below_picture : below picture rootSite = [] := by decide +kernel

end Examples

end CrdtSync.Server.BlobAccess
