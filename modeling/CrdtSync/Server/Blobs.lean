import CrdtSync.Lib.AtomicWrite
import CrdtSync.Server.StoreFiles

/-!
# The blob store

Blob bytes are kept outside the op stream. A large blob is one object, named by the hash of its
bytes, so that two puts of the same bytes share it; a public handle is drawn at random and resolves
through a ref file to the hash. Object and ref are each filled beside their place and renamed into
it, the object first.
-/

namespace CrdtSync.Server.Blobs

open Lib Directory StoreFiles
open Std (ExtTreeMap)

/-- Blobs at or below this size ride inline. -/
def INLINE_MAX : Nat := 4096

abbrev Uuid := Fin (2 ^ 128)

/-- The sha256 of a blob's bytes. -/
class ContentSha where
  sha : Bytes → Bytes
  length_sha : ∀ bytes, (sha bytes).length = 32

export ContentSha (sha)

inductive IoError
  | notFound
  | unexpectedEof
deriving DecidableEq

structure Disk where
  objects : Directory FileName Bytes
  refs : Directory FileName Bytes

/-- Each public handle with its content hash. -/
abbrev Index := ExtTreeMap Uuid Bytes compare

/-- What system entropy gives one call: the handle, and the names of its temporary files. -/
structure Draws where
  id : Uuid
  objectTmp : Uuid
  refTmp : Uuid

def uuidName (id : Uuid) : FileName := hexName (Codec.putRaw id)

def objectPath (sha : Bytes) : FileName := hexName sha

def refPath (id : Uuid) : FileName := uuidName id

def parseUuid (name : FileName) : Option Uuid :=
  let bytes := name.flatMap String.utf8EncodeChar
  if bytes.length ≠ 32 then none
  else (unhexPairs bytes).map fun id => Fin.ofNat (2 ^ 128) (Codec.ofLeBytes id.reverse)

/-- `Path::with_extension` -/
def withExtension (file ext : FileName) : FileName :=
  if ext.isEmpty then fileStem file else fileStem file ++ '.' :: ext

def atomicWriteTo (fresh : Uuid) (path : FileName) (buf : Bytes) : List (FileOp FileName Bytes) :=
  atomicWrite (withExtension path (uuidName fresh)) path buf

/-- Take one ref file into the index. A name that is not a handle's is passed over. -/
def loadRef (index : Index) (entry : FileName × File Bytes) : Except IoError Index :=
  match parseUuid entry.1 with
  | none => .ok index
  | some id =>
    if entry.2.content.length < 32 then .error .unexpectedEof
    else .ok (index.insert id (entry.2.content.take 32))

/-- Rebuild the handle index from the persisted refs. -/
def openStore (disk : Disk) : Except IoError Index := disk.refs.now.toList.foldlM loadRef ∅

section Calls

variable [ContentSha]

/-- The object is written only when this content is new. -/
def objectOps (disk : Disk) (draws : Draws) (bytes : Bytes) : List (FileOp FileName Bytes) :=
  if disk.objects.now[objectPath (sha bytes)]?.isSome then []
  else atomicWriteTo draws.objectTmp (objectPath (sha bytes)) bytes

def refOps (draws : Draws) (bytes : Bytes) : List (FileOp FileName Bytes) :=
  atomicWriteTo draws.refTmp (refPath draws.id) (sha bytes)

/-- The object, then the ref. -/
def Disk.store (disk : Disk) (draws : Draws) (bytes : Bytes) : Disk :=
  ⟨disk.objects.run (objectOps disk draws bytes), disk.refs.run (refOps draws bytes)⟩

/-- What is stored when the `k`-th file operation of it is cut short. -/
def Disk.cut (disk : Disk) (draws : Draws) (bytes : Bytes) (part : Bytes → Bytes) (k : Nat) : Disk :=
  ⟨disk.objects.run (cutAt part k (objectOps disk draws bytes)),
    disk.refs.run (cutAt part (k - (objectOps disk draws bytes).length) (refOps draws bytes))⟩

/-- Store some bytes and return a handle for them. Small ones ride inline and are not written. -/
def put (disk : Disk) (index : Index) (draws : Draws) (bytes mime : Bytes) : BlobRef × Disk × Index :=
  if bytes.length ≤ INLINE_MAX then (⟨draws.id, mime, bytes.length, some bytes⟩, disk, index)
  else
    (⟨draws.id, mime, bytes.length, none⟩, disk.store draws bytes, index.insert draws.id (sha bytes))

/-- Store some bytes under a handle that can be fetched, small ones too. -/
def putFetchable (disk : Disk) (index : Index) (draws : Draws) (bytes mime : Bytes) :
    BlobRef × Disk × Index :=
  (⟨draws.id, mime, bytes.length, if bytes.length ≤ INLINE_MAX then some bytes else none⟩,
    disk.store draws bytes, index.insert draws.id (sha bytes))

/-- Resolve a public handle to its stored bytes, or none if it is unknown. -/
def get (disk : Disk) (index : Index) (id : Uuid) : Except IoError (Option Bytes) :=
  match index[id]? with
  | none => .ok none
  | some sha =>
    match disk.objects.now[objectPath sha]? with
    | none => .error .notFound
    | some file => .ok (some file.content)

end Calls

section Names

theorem refPath_injective {id id' : Uuid} (h : refPath id = refPath id') : id = id' := by
  have hRaw : (leBytes 16 id).reverse = (leBytes 16 id').reverse := hexName_injective h
  have hWidth : (2 : Nat) ^ 128 = 256 ^ 16 := by decide
  exact Fin.ext (leBytes_inj (id.isLt.trans_eq hWidth) (id'.isLt.trans_eq hWidth)
    (List.reverse_injective hRaw))

theorem parseUuid_refPath (id : Uuid) : parseUuid (refPath id) = some id := by
  have hWidth : (2 : Nat) ^ 128 = 256 ^ 16 := by decide
  have hLength : (Codec.putRaw id).length = 16 := by simp [Codec.putRaw, leBytes_length]
  unfold parseUuid refPath uuidName
  dsimp only
  rw [length_hexName, hLength, if_neg (by decide), unhexPairs_hexName, Option.map_some, Codec.putRaw,
    List.reverse_reverse, Codec.ofLeBytes_leBytes (id.isLt.trans_eq hWidth), Fin.ofNat_val_eq_self]

theorem unhexPairs_dot {bytes : Bytes} (h : '.'.toUInt8 ∈ bytes) : unhexPairs bytes = none := by
  have hDot : unhex '.'.toUInt8 = none := by decide
  fun_induction unhexPairs bytes with
  | case1 high low rest ih =>
    rcases List.mem_cons.mp h with rfl | h
    · rw [hDot, Option.bind_eq_bind, Option.bind_none]
    · rcases List.mem_cons.mp h with rfl | h
      · simp [hDot]
      · simp [ih h]
  | case2 => cases h
  | case3 => rfl

theorem parseUuid_dot {name : FileName} (h : '.' ∈ name) : parseUuid name = none := by
  have hDot : '.'.toUInt8 ∈ name.flatMap String.utf8EncodeChar :=
    List.mem_flatMap.mpr ⟨'.', h, by decide⟩
  unfold parseUuid
  dsimp only
  split
  · rfl
  · rw [unhexPairs_dot hDot]
    rfl

theorem uuidName_ne_nil (id : Uuid) : uuidName id ≠ [] := by
  have hLength := length_hexName (Codec.putRaw id)
  intro hNil
  rw [show hexName (Codec.putRaw id) = [] from hNil] at hLength
  simp [Codec.putRaw, leBytes_length] at hLength

theorem dot_mem_withExtension (file : FileName) (fresh : Uuid) :
    '.' ∈ withExtension file (uuidName fresh) := by
  unfold withExtension
  rw [if_neg (by simpa using uuidName_ne_nil fresh)]
  exact List.mem_append_right _ List.mem_cons_self

theorem not_mem_refPath (id : Uuid) : '.' ∉ refPath id := not_mem_hexName (.inl rfl) _

theorem not_mem_objectPath (sha : Bytes) : '.' ∉ objectPath sha := not_mem_hexName (.inl rfl) _

theorem ne_tmp {name : FileName} (hName : '.' ∉ name) (file : FileName) (fresh : Uuid) :
    name ≠ withExtension file (uuidName fresh) := fun hSame =>
  hName (hSame ▸ dot_mem_withExtension file fresh)

end Names

section Load

variable {index out : Index} {entries : List (FileName × File Bytes)}

/-- Refs that hold whole hashes load, and the index has of each handle what a ref of it holds. -/
theorem foldlM_loadRef (h : ∀ entry ∈ entries, ∀ id, parseUuid entry.1 = some id →
      entry.2.content.length = 32) (index : Index) :
    ∃ out, entries.foldlM loadRef index = .ok out ∧
      (∀ id c, out[id]? = some c →
        index[id]? = some c ∨ ∃ entry ∈ entries, parseUuid entry.1 = some id ∧ entry.2.content = c) ∧
      ∀ id, (∃ entry ∈ entries, parseUuid entry.1 = some id) ∨ index[id]?.isSome → out[id]?.isSome := by
  induction entries generalizing index with
  | nil => exact ⟨index, rfl, fun _ _ h => .inl h, fun id h => h.resolve_left (by simp)⟩
  | cons entry entries ih =>
    have hRest := ih fun other hOther => h other (List.mem_cons_of_mem _ hOther)
    rw [List.foldlM_cons]
    unfold loadRef
    cases hParse : parseUuid entry.1 with
    | none =>
      obtain ⟨out, hOut, hFrom, hIn⟩ := hRest index
      refine ⟨out, hOut, fun id c hc => ?_, fun id hId => hIn id ?_⟩
      · rcases hFrom id c hc with hOld | ⟨other, hOther, hRead⟩
        · exact .inl hOld
        · exact .inr ⟨other, List.mem_cons_of_mem _ hOther, hRead⟩
      · rcases hId with ⟨other, hOther, hId⟩ | hOld
        · rcases List.mem_cons.mp hOther with rfl | hOther
          · rw [hParse] at hId
            cases hId
          · exact .inl ⟨other, hOther, hId⟩
        · exact .inr hOld
    | some own =>
      have hLength := h entry List.mem_cons_self own hParse
      obtain ⟨out, hOut, hFrom, hIn⟩ := hRest (index.insert own (entry.2.content.take 32))
      dsimp only
      rw [if_neg (by omega)]
      refine ⟨out, hOut, fun id c hc => ?_, fun id hId => hIn id ?_⟩
      · rcases hFrom id c hc with hOld | ⟨other, hOther, hRead⟩
        · rw [getElem?_insert_ite] at hOld
          split at hOld
          next hSame =>
            cases hOld
            rw [List.take_of_length_le hLength.le]
            exact .inr ⟨entry, List.mem_cons_self, hSame ▸ hParse, rfl⟩
          next => exact .inl hOld
        · exact .inr ⟨other, List.mem_cons_of_mem _ hOther, hRead⟩
      · rw [getElem?_insert_ite]
        rcases hId with ⟨other, hOther, hId⟩ | hOld
        · rcases List.mem_cons.mp hOther with rfl | hOther
          · rw [hParse] at hId
            cases hId
            exact .inr (by simp)
          · exact .inl ⟨other, hOther, hId⟩
        · right
          split
          · rfl
          · exact hOld

end Load

end CrdtSync.Server.Blobs
