import CrdtSync.Core.Codec
import CrdtSync.Lib.Records
import CrdtSync.Server.Hub

/-!
# The files of a store

Every room's files lie in one flat directory. A file is told apart by its name alone, which
is made of the hex of the room, that of a branch where the kind has one, and an extension;
what it holds is a snapshot, a list of records or a single one, read back by a parser with a
failure policy of its own.
-/

namespace CrdtSync.Server.StoreFiles

open Lib Cursor

/-! ### Names -/

abbrev FileName := List Char

def HEX : List Char := ['0', '1', '2', '3', '4', '5', '6', '7', '8', '9', 'a', 'b', 'c', 'd', 'e', 'f']

def hexDigit (n : UInt8) : Char := HEX.getD n.toNat '0'

def hexName (room : Bytes) : FileName :=
  room.flatMap fun byte : UInt8 => [hexDigit (byte >>> 4), hexDigit (byte &&& 0x0f)]

/-- Which kind of per-room file a path is. A branch tail carries its branch name. -/
inductive FileKind
  | log
  | snapshot
  | versions
  | metadata
  | branches
  | branchLog (branch : Bytes)
  | branchBase (branch : Bytes)
  | active
  | epoch
deriving DecidableEq

def roomFile (ext : FileName) (room : RoomId) : FileName := hexName room ++ '.' :: ext

/-- `{hex room}_{hex branch}.{ext}` -/
def branchFile (ext : FileName) (room : RoomId) (branch : Bytes) : FileName :=
  hexName room ++ '_' :: hexName branch ++ '.' :: ext

def roomPath : RoomId → FileName := roomFile ['l', 'o', 'g']

def snapPath : RoomId → FileName := roomFile ['s', 'n', 'a', 'p']

def snapTmpPath : RoomId → FileName := roomFile ['s', 'n', 'a', 'p', '.', 't', 'm', 'p']

def versionsPath : RoomId → FileName := roomFile ['v', 'e', 'r', 's', 'i', 'o', 'n', 's']

def versionsTmpPath : RoomId → FileName := roomFile ['v', 'e', 'r', 's', 'i', 'o', 'n', 's', '.', 't', 'm', 'p']

def metaPath : RoomId → FileName := roomFile ['m', 'e', 't', 'a']

def metaTmpPath : RoomId → FileName := roomFile ['m', 'e', 't', 'a', '.', 't', 'm', 'p']

def branchesPath : RoomId → FileName := roomFile ['b', 'r', 'a', 'n', 'c', 'h', 'e', 's']

def branchesTmpPath : RoomId → FileName := roomFile ['b', 'r', 'a', 'n', 'c', 'h', 'e', 's', '.', 't', 'm', 'p']

def branchLogPath : RoomId → Bytes → FileName := branchFile ['b', 'l', 'o', 'g']

def branchBasePath : RoomId → Bytes → FileName := branchFile ['b', 'b', 'a', 's', 'e']

def branchBaseTmpPath : RoomId → Bytes → FileName := branchFile ['b', 'b', 'a', 's', 'e', '.', 't', 'm', 'p']

def epochPath : RoomId → FileName := roomFile ['e', 'p', 'o', 'c', 'h']

def epochTmpPath : RoomId → FileName := roomFile ['e', 'p', 'o', 'c', 'h', '.', 't', 'm', 'p']

def activePath : RoomId → FileName := roomFile ['a', 'c', 't', 'i', 'v', 'e']

def activeTmpPath : RoomId → FileName := roomFile ['a', 'c', 't', 'i', 'v', 'e', '.', 't', 'm', 'p']

def path (room : RoomId) : FileKind → FileName
  | .log => roomPath room
  | .snapshot => snapPath room
  | .versions => versionsPath room
  | .metadata => metaPath room
  | .branches => branchesPath room
  | .branchLog branch => branchLogPath room branch
  | .branchBase branch => branchBasePath room branch
  | .active => activePath room
  | .epoch => epochPath room

/-- The in-progress file of a kind. The logs are appended to in place. -/
def tmpPath (room : RoomId) : FileKind → Option FileName
  | .log => none
  | .snapshot => some (snapTmpPath room)
  | .versions => some (versionsTmpPath room)
  | .metadata => some (metaTmpPath room)
  | .branches => some (branchesTmpPath room)
  | .branchLog _ => none
  | .branchBase branch => some (branchBaseTmpPath room branch)
  | .active => some (activeTmpPath room)
  | .epoch => some (epochTmpPath room)

/-- What is before the last dot of a file's name and what is after it. A dot the name starts with
splits nothing, and neither do the two of the parent directory. -/
def rsplitFileAtDot (file : FileName) : FileName × Option FileName :=
  let after := (file.reverse.takeWhile (· ≠ '.')).reverse
  let before := file.take (file.length - (after.length + 1))
  if file = ['.', '.'] ∨ '.' ∉ file ∨ before = [] then (file, none) else (before, some after)

def fileStem (file : FileName) : FileName := (rsplitFileAtDot file).1

def extension (file : FileName) : Option FileName := (rsplitFileAtDot file).2

def splitOnce (file : FileName) (c : Char) : Option (FileName × FileName) :=
  if c ∈ file then some (file.takeWhile (· ≠ c), (file.dropWhile (· ≠ c)).tail) else none

def unhex (c : UInt8) : Option UInt8 :=
  if '0'.toUInt8 ≤ c ∧ c ≤ '9'.toUInt8 then some (c - '0'.toUInt8)
  else if 'a'.toUInt8 ≤ c ∧ c ≤ 'f'.toUInt8 then some (c - 'a'.toUInt8 + 10)
  else none

def unhexPairs : Bytes → Option Bytes
  | high :: low :: rest => do
    let high ← unhex high
    let low ← unhex low
    let bytes ← unhexPairs rest
    some ((high <<< 4 ||| low) :: bytes)
  | [] => some []
  | [_] => none

/-- Decode a hex file-name component back to its bytes. -/
def decodeHex (hex : FileName) : Option Bytes :=
  let hex := hex.flatMap String.utf8EncodeChar
  if hex.length % 2 ≠ 0 then none else unhexPairs hex

def classify (file : FileName) : Option (RoomId × FileKind) := do
  let ext ← extension file
  let stem := fileStem file
  if ext = ['b', 'l', 'o', 'g'] then
    let (room, branch) ← splitOnce stem '_'
    some (← decodeHex room, .branchLog (← decodeHex branch))
  else if ext = ['b', 'b', 'a', 's', 'e'] then
    let (room, branch) ← splitOnce stem '_'
    some (← decodeHex room, .branchBase (← decodeHex branch))
  else
    let kind ←
      if ext = ['l', 'o', 'g'] then some FileKind.log
      else if ext = ['s', 'n', 'a', 'p'] then some .snapshot
      else if ext = ['v', 'e', 'r', 's', 'i', 'o', 'n', 's'] then some .versions
      else if ext = ['m', 'e', 't', 'a'] then some .metadata
      else if ext = ['b', 'r', 'a', 'n', 'c', 'h', 'e', 's'] then some .branches
      else if ext = ['a', 'c', 't', 'i', 'v', 'e'] then some .active
      else if ext = ['e', 'p', 'o', 'c', 'h'] then some .epoch
      else none
    some (← decodeHex stem, kind)

/-! ### Records -/

/-- Why a file is refused. -/
inductive InvalidData
  | shortHeader
  | truncated
  | badOriginFlag
deriving DecidableEq

abbrev Reader := Cursor InvalidData

/-- What a write does to its file. A length past four bytes is a panic, which leaves the file as it
was. -/
inductive Written
  | panicked
  | removed
  | file (bytes : Bytes)

def Written.ofBuf : Option Bytes → Written
  | none => .panicked
  | some buf => .file buf

/-- Append some bytes behind their length, which must fit four bytes. -/
def putBytes (bytes : Bytes) : Option Bytes :=
  if bytes.length < 2 ^ 32 then some (Codec.putBytes bytes) else none

def putU32 (n : UInt32) : Bytes := leBytes 4 n.toNat

def putU64 (n : UInt64) : Bytes := leBytes 8 n.toNat

def takeU8 : Reader UInt8 := do
  let bytes ← take .truncated 1
  pure (bytes.headD 0)

def takeU32 : Reader UInt32 := do
  let field ← take .truncated 4
  pure (UInt32.ofNat (Codec.ofLeBytes field))

def takeU64 : Reader UInt64 := do
  let field ← take .truncated 8
  pure (UInt64.ofNat (Codec.ofLeBytes field))

def takeBytes : Reader Bytes := do
  let len ← takeU32
  take .truncated len.toNat

/-- A named version as it is kept. -/
structure VersionRecord where
  name : Bytes
  seq : UInt64
  origin : Option Bytes
  ordinal : UInt64
  state : Bytes
deriving DecidableEq

/-- One branch of a room. -/
structure BranchRecord where
  name : Bytes
  forkPoint : UInt64
  head : UInt64
  published : Bool
deriving DecidableEq

/-- A room's governing metadata. -/
structure MetaRecord where
  governing : Option (Bytes × UInt32)
  maxOpVersion : Option UInt32
  creator : Option Bytes
  clientActors : List (ClientId × Bytes)
deriving DecidableEq

structure SnapshotRecord where
  baseSeq : UInt64
  state : Bytes
deriving DecidableEq

/-- A present-flag, and a field behind it where there is one. -/
def putFlagged {α : Type} (put : α → Option Bytes) : Option α → Option Bytes
  | none => some [0]
  | some a => (put a).map (1 :: ·)

section Write

def versionBuf (v : VersionRecord) : Option Bytes := do
  let name ← putBytes v.name
  let origin ← putFlagged putBytes v.origin
  let state ← putBytes v.state
  some (name ++ (putU64 v.seq ++ (origin ++ (putU64 v.ordinal ++ state))))

/-- The buffers of some records one after another. -/
def putAll {α : Type} (put : α → Option Bytes) : List α → Option Bytes
  | [] => some []
  | a :: as => do
    let buf ← put a
    let bufs ← putAll put as
    some (buf ++ bufs)

def writeVersions (versions : List VersionRecord) : Written :=
  if versions.isEmpty then .removed else .ofBuf (putAll versionBuf versions)

/-- `u32::try_from(len).unwrap_or(u32::MAX)` -/
def claimCount (clientActors : List (ClientId × Bytes)) : Nat := min clientActors.length (2 ^ 32 - 1)

def claimBuf (claim : ClientId × Bytes) : Option Bytes := do
  let actor ← putBytes claim.2
  some (Codec.putClient claim.1 ++ actor)

def governingBuf (governing : Bytes × UInt32) : Option Bytes := do
  let app ← putBytes governing.1
  some (app ++ putU32 governing.2)

def metaBuf (m : MetaRecord) : Option Bytes := do
  let governing ← putFlagged governingBuf m.governing
  let maxOpVersion ← putFlagged (some ∘ putU32) m.maxOpVersion
  let creator ← putFlagged putBytes m.creator
  let claims := claimCount m.clientActors
  let clientActors ← putAll claimBuf (m.clientActors.take claims)
  some (governing ++ (maxOpVersion ++ (creator ++ (Codec.putU32 claims ++ clientActors))))

/-- No field is present. -/
def MetaRecord.isEmpty (m : MetaRecord) : Bool :=
  m.governing.isNone && m.maxOpVersion.isNone && m.creator.isNone && m.clientActors.isEmpty

def writeMeta (m : MetaRecord) : Written := if m.isEmpty then .removed else .ofBuf (metaBuf m)

def branchBuf (b : BranchRecord) : Option Bytes := do
  let name ← putBytes b.name
  some (name ++ (putU64 b.forkPoint ++ (putU64 b.head ++ [if b.published then 1 else 0])))

def writeBranches (branches : List BranchRecord) : Written :=
  if branches.isEmpty then .removed else .ofBuf (putAll branchBuf branches)

/-- Epoch `0` is the never-led sentinel. -/
def writeEpoch (epoch : UInt64) : Written := if epoch = 0 then .removed else .file (putU64 epoch)

/-- The snapshot a compaction writes. -/
def compact (baseSeq : UInt64) (state : Bytes) : Written := .file (putU64 baseSeq ++ state)

end Write

section Parse

def parseEpoch (bytes : Bytes) : Option UInt64 :=
  if bytes.length = 8 then some (UInt64.ofNat (Codec.ofLeBytes bytes)) else none

def parseSnapshot (bytes : Bytes) : Except InvalidData SnapshotRecord :=
  if bytes.length < 8 then .error .shortHeader
  else .ok ⟨UInt64.ofNat (Codec.ofLeBytes (bytes.take 8)), bytes.drop 8⟩

/-- A field behind its present-flag. -/
def takeFlagged {α : Type} (bad : InvalidData) (field : Reader α) : Reader (Option α) := do
  match ← takeU8 with
  | 0 => pure none
  | 1 => some <$> field
  | _ => throw bad

def takeVersion : Reader VersionRecord := do
  let name ← takeBytes
  let seq ← takeU64
  let origin ← takeFlagged .badOriginFlag takeBytes
  let ordinal ← takeU64
  let state ← takeBytes
  pure ⟨name, seq, origin, ordinal, state⟩

/-- The file is never torn, so a shortfall is corruption. -/
def parseVersions (bytes : Bytes) : Except InvalidData (List VersionRecord) := all takeVersion bytes

def takeGoverning : Reader (Bytes × UInt32) := do
  let app ← takeBytes
  let version ← takeU32
  pure (app, version)

def fromBytes (id : Bytes) : ClientId := ⟨Fin.ofNat _ (Codec.ofLeBytes id.reverse)⟩

def takeClaim : Reader (ClientId × Bytes) := do
  let id ← takeU8.times 16
  let actor ← takeBytes
  pure (fromBytes id, actor)

/-- What a bad flag is refused with is not looked at. -/
def takeMeta : Reader MetaRecord := do
  let governing ← takeFlagged .truncated takeGoverning
  let maxOpVersion ← takeFlagged .truncated takeU32
  let creator ← takeFlagged .truncated takeBytes
  let count ← takeU32
  let clientActors ← takeClaim.times count.toNat
  pure ⟨governing, maxOpVersion, creator, clientActors⟩

/-- A record that is malformed, goes on past its end or has no field loads as absent. -/
def parseMeta (bytes : Bytes) : Option MetaRecord :=
  match takeMeta.run bytes with
  | .error _ => none
  | .ok (m, rest) => if !rest.isEmpty || m.isEmpty then none else some m

def takeBranch : Reader BranchRecord := do
  let name ← takeBytes
  let forkPoint ← takeU64
  let head ← takeU64
  let published ← takeU8
  pure ⟨name, forkPoint, head, published != 0⟩

/-- Any shortfall discards the whole set. -/
def parseBranches (bytes : Bytes) : List BranchRecord :=
  match all takeBranch bytes with
  | .error _ => []
  | .ok branches => branches

end Parse

/-! ### Hex -/

/-- A hex digit is one byte of a name, and neither of the two separators. -/
theorem hexDigit_eq {n : UInt8} (h : n < 16) :
    String.utf8EncodeChar (hexDigit n) = [(hexDigit n).toUInt8] ∧
      unhex (hexDigit n).toUInt8 = some n ∧ hexDigit n ≠ '.' ∧ hexDigit n ≠ '_' := by
  have hAll : ∀ n : Nat, n < 16 →
      String.utf8EncodeChar (hexDigit (UInt8.ofNat n)) = [(hexDigit (UInt8.ofNat n)).toUInt8] ∧
        unhex (hexDigit (UInt8.ofNat n)).toUInt8 = some (UInt8.ofNat n) ∧
          hexDigit (UInt8.ofNat n) ≠ '.' ∧ hexDigit (UInt8.ofNat n) ≠ '_' := by decide
  have hn := hAll n.toNat (UInt8.lt_iff_toNat_lt.mp h)
  rwa [UInt8.ofNat_toNat] at hn

/-- A byte is its two halves. -/
theorem nibbles (b : UInt8) : b >>> 4 < 16 ∧ b &&& 0x0f < 16 ∧ (b >>> 4) <<< 4 ||| (b &&& 0x0f) = b := by
  have hAll : ∀ n : Nat, n < 256 → UInt8.ofNat n >>> 4 < 16 ∧ UInt8.ofNat n &&& 0x0f < 16 ∧
      (UInt8.ofNat n >>> 4) <<< 4 ||| (UInt8.ofNat n &&& 0x0f) = UInt8.ofNat n := by decide +kernel
  have hb := hAll b.toNat b.toNat_lt
  rwa [UInt8.ofNat_toNat] at hb

theorem hexName_cons (b : UInt8) (room : Bytes) :
    hexName (b :: room) = hexDigit (b >>> 4) :: hexDigit (b &&& 0x0f) :: hexName room := rfl

theorem unhexPairs_hexName (room : Bytes) :
    unhexPairs ((hexName room).flatMap String.utf8EncodeChar) = some room := by
  induction room with
  | nil => rfl
  | cons b room ih =>
    obtain ⟨hHigh, hLow, hByte⟩ := nibbles b
    obtain ⟨hHighChar, hHighDigit, -⟩ := hexDigit_eq hHigh
    obtain ⟨hLowChar, hLowDigit, -⟩ := hexDigit_eq hLow
    rw [hexName_cons, List.flatMap_cons, List.flatMap_cons, hHighChar, hLowChar,
      List.singleton_append, List.singleton_append, unhexPairs, hHighDigit, hLowDigit, ih]
    change some (((b >>> 4) <<< 4 ||| (b &&& 0x0f)) :: room) = _
    rw [hByte]

theorem length_hexName (room : Bytes) :
    ((hexName room).flatMap String.utf8EncodeChar).length = 2 * room.length := by
  induction room with
  | nil => rfl
  | cons b room ih =>
    obtain ⟨hHigh, hLow, -⟩ := nibbles b
    rw [hexName_cons, List.flatMap_cons, List.flatMap_cons, (hexDigit_eq hHigh).1,
      (hexDigit_eq hLow).1, List.length_append, List.length_append, ih, List.length_cons]
    simp only [List.length_cons, List.length_nil]
    omega

theorem decodeHex_hexName (room : Bytes) : decodeHex (hexName room) = some room := by
  unfold decodeHex
  dsimp only
  rw [length_hexName, if_neg (by omega), unhexPairs_hexName]

theorem hexName_injective {room room' : Bytes} (h : hexName room = hexName room') : room = room' := by
  have hDecode := decodeHex_hexName room
  rw [h, decodeHex_hexName] at hDecode
  exact (Option.some_inj.mp hDecode).symm

theorem not_mem_hexName {c : Char} (hc : c = '.' ∨ c = '_') (room : Bytes) : c ∉ hexName room := by
  induction room with
  | nil => exact List.not_mem_nil
  | cons b room ih =>
    obtain ⟨hHigh, hLow, -⟩ := nibbles b
    have hHighDigit := (hexDigit_eq hHigh).2.2
    have hLowDigit := (hexDigit_eq hLow).2.2
    rw [hexName_cons, List.mem_cons, List.mem_cons, not_or, not_or]
    obtain rfl | rfl := hc
    · exact ⟨hHighDigit.1.symm, hLowDigit.1.symm, ih⟩
    · exact ⟨hHighDigit.2.symm, hLowDigit.2.symm, ih⟩

theorem hexName_eq_nil {room : Bytes} : hexName room = [] ↔ room = [] := by
  cases room with
  | nil => simp [hexName]
  | cons b room => simp [hexName_cons]

/-! ### Splitting a name -/

/-- A name with one last dot splits there, unless nothing is before it. -/
theorem rsplitFileAtDot_eq {stem ext : FileName} (hExt : '.' ∉ ext) (hStem : stem ≠ []) (hNotParent : ext ≠ []) :
    rsplitFileAtDot (stem ++ '.' :: ext) = (stem, some ext) := by
  have hAfter : ((stem ++ '.' :: ext).reverse.takeWhile (· ≠ '.')).reverse = ext := by
    rw [List.reverse_append, List.reverse_cons, List.append_assoc,
      List.takeWhile_append_of_pos (by
        intro c hc
        rw [decide_eq_true_eq]
        rintro rfl
        exact hExt (List.mem_reverse.mp hc))]
    simp
  have hBefore : (stem ++ '.' :: ext).take ((stem ++ '.' :: ext).length - (ext.length + 1)) = stem := by
    rw [List.length_append, List.length_cons, Nat.add_sub_cancel, List.take_left]
  unfold rsplitFileAtDot
  dsimp only
  rw [hAfter, hBefore, if_neg]
  rintro (hParent | hNone | hEmpty)
  · have hLast := congrArg List.reverse hParent
    rw [List.reverse_append, List.reverse_cons] at hLast
    obtain ⟨e, es, hEs⟩ := List.exists_cons_of_ne_nil (List.reverse_ne_nil_iff.mpr hNotParent)
    rw [hEs] at hLast
    obtain rfl : e = '.' := (List.cons.inj hLast).1
    exact hExt (List.mem_reverse.mp (hEs ▸ List.mem_cons_self))
  · exact hNone (by simp)
  · exact hStem hEmpty

theorem rsplitFileAtDot_hidden {ext : FileName} (hExt : '.' ∉ ext) :
    rsplitFileAtDot ('.' :: ext) = ('.' :: ext, none) := by
  have hAfter : (('.' :: ext).reverse.takeWhile (· ≠ '.')).reverse = ext := by
    rw [List.reverse_cons, List.takeWhile_append_of_pos (by
        intro c hc
        rw [decide_eq_true_eq]
        rintro rfl
        exact hExt (List.mem_reverse.mp hc))]
    simp
  unfold rsplitFileAtDot
  dsimp only
  rw [hAfter, if_pos]
  refine .inr (.inr ?_)
  rw [List.length_cons, Nat.sub_self, List.take_zero]

theorem splitOnce_eq {c : Char} {front : FileName} (back : FileName) (hFront : c ∉ front) :
    splitOnce (front ++ c :: back) c = some (front, back) := by
  have hTake : (front ++ c :: back).takeWhile (· ≠ c) = front := by
    rw [List.takeWhile_append_of_pos (by
      intro d hd
      rw [decide_eq_true_eq]
      rintro rfl
      exact hFront hd)]
    simp
  have hDrop : (front ++ c :: back).dropWhile (· ≠ c) = c :: back := by
    rw [List.dropWhile_append_of_pos (by
      intro d hd
      rw [decide_eq_true_eq]
      rintro rfl
      exact hFront hd)]
    simp
  unfold splitOnce
  rw [if_pos (by simp), hTake, hDrop]
  rfl

/-! ### A kind's name -/

def FileKind.ofBranch : FileKind → Bool
  | .branchLog _ | .branchBase _ => true
  | _ => false

def FileKind.stem (room : RoomId) : FileKind → FileName
  | .branchLog branch => hexName room ++ '_' :: hexName branch
  | .branchBase branch => hexName room ++ '_' :: hexName branch
  | _ => hexName room

def FileKind.ext : FileKind → FileName
  | .log => ['l', 'o', 'g']
  | .snapshot => ['s', 'n', 'a', 'p']
  | .versions => ['v', 'e', 'r', 's', 'i', 'o', 'n', 's']
  | .metadata => ['m', 'e', 't', 'a']
  | .branches => ['b', 'r', 'a', 'n', 'c', 'h', 'e', 's']
  | .branchLog _ => ['b', 'l', 'o', 'g']
  | .branchBase _ => ['b', 'b', 'a', 's', 'e']
  | .active => ['a', 'c', 't', 'i', 'v', 'e']
  | .epoch => ['e', 'p', 'o', 'c', 'h']

theorem path_eq (room : RoomId) (kind : FileKind) : path room kind = kind.stem room ++ '.' :: kind.ext := by
  cases kind <;> simp only [path, roomPath, snapPath, versionsPath, metaPath, branchesPath,
    branchLogPath, branchBasePath, activePath, epochPath, roomFile, branchFile, FileKind.stem,
    FileKind.ext]

theorem tmpPath_eq {room : RoomId} {kind : FileKind} {tmp : FileName} (h : tmpPath room kind = some tmp) :
    tmp = path room kind ++ '.' :: ['t', 'm', 'p'] := by
  rw [path_eq]
  cases kind <;> simp only [tmpPath, reduceCtorEq, Option.some_inj] at h <;> subst h <;>
    simp [snapTmpPath, versionsTmpPath, metaTmpPath, branchesTmpPath, branchBaseTmpPath, epochTmpPath,
      activeTmpPath, roomFile, branchFile, FileKind.stem, FileKind.ext]

theorem FileKind.not_mem_ext (kind : FileKind) : '.' ∉ kind.ext ∧ kind.ext ≠ [] := by
  cases kind <;> simp only [ext] <;> decide

theorem FileKind.not_mem_stem (room : RoomId) (kind : FileKind) : '.' ∉ kind.stem room := by
  have hRoom := not_mem_hexName (.inl rfl) room
  have hBranch : ∀ branch, '.' ∉ hexName room ++ '_' :: hexName branch := by
    intro branch
    have hName := not_mem_hexName (.inl rfl) branch
    simp [hRoom, hName]
  cases kind with
  | branchLog branch => exact hBranch branch
  | branchBase branch => exact hBranch branch
  | _ => exact hRoom

/-- The name is empty before its dot only where the room's id is empty and no branch is named. -/
theorem FileKind.stem_eq_nil {room : RoomId} {kind : FileKind} :
    kind.stem room = [] ↔ ¬(room ≠ [] ∨ kind.ofBranch) := by
  cases kind <;> simp [stem, ofBranch, hexName_eq_nil]

theorem path_injective {room room' : RoomId} {kind kind' : FileKind}
    (h : path room kind = path room' kind') : room = room' ∧ kind = kind' := by
  rw [path_eq, path_eq] at h
  obtain ⟨hStem, -, hExt⟩ := (List.append_cons_inj_of_notMem (kind.not_mem_stem room)
    kind.not_mem_ext.1).mp h
  have hSplit : ∀ {branch branch' : Bytes},
      hexName room ++ '_' :: hexName branch = hexName room' ++ '_' :: hexName branch' →
        room = room' ∧ branch = branch' := by
    intro branch branch' hNames
    obtain ⟨hRoom, -, hBranch⟩ := (List.append_cons_inj_of_notMem (not_mem_hexName (.inr rfl) room)
      (not_mem_hexName (.inr rfl) branch)).mp hNames
    exact ⟨hexName_injective hRoom, hexName_injective hBranch⟩
  cases kind <;> cases kind' <;> simp only [FileKind.stem, FileKind.ext] at hStem hExt <;> first
    | exact absurd hExt (by decide)
    | exact ⟨hexName_injective hStem, rfl⟩
    | exact ⟨(hSplit hStem).1, congrArg _ (hSplit hStem).2⟩

theorem classify_tmpPath {room : RoomId} {kind : FileKind} {tmp : FileName}
    (h : tmpPath room kind = some tmp) : classify tmp = none := by
  have hName := tmpPath_eq h
  have hNonempty : path room kind ≠ [] := by
    rw [path_eq]
    simp
  have hDotless : '.' ∉ ['t', 'm', 'p'] := by decide
  have hSplit := rsplitFileAtDot_eq hDotless hNonempty (by decide)
  rw [← hName] at hSplit
  unfold classify extension
  rw [hSplit]
  rfl

/-- A file is told apart by its name, unless that starts with its only dot. -/
theorem classify_path (room : RoomId) (kind : FileKind) :
    classify (path room kind) = some (room, kind) ↔ room ≠ [] ∨ kind.ofBranch := by
  rw [path_eq]
  by_cases hStem : kind.stem room = []
  · have hHidden := rsplitFileAtDot_hidden kind.not_mem_ext.1
    rw [hStem, List.nil_append]
    refine iff_of_false ?_ (FileKind.stem_eq_nil.mp hStem)
    unfold classify extension
    rw [hHidden]
    simp
  · have hSplit := rsplitFileAtDot_eq kind.not_mem_ext.1 hStem kind.not_mem_ext.2
    refine iff_of_true ?_ (not_not.mp (mt FileKind.stem_eq_nil.mpr hStem))
    have hRoom := decodeHex_hexName room
    have hBranch := fun branch : Bytes => splitOnce_eq (hexName branch) (not_mem_hexName (.inr rfl) room)
    unfold classify extension fileStem
    rw [hSplit]
    cases kind <;> simp [FileKind.stem, FileKind.ext, hRoom, hBranch, decodeHex_hexName]

/-! ### Fields -/

theorem whole_take {n : Nat} {bytes : Bytes} (h : bytes.length = n) :
    Whole (take InvalidData.truncated n) bytes bytes := by
  subst h
  exact Cursor.whole_take _ bytes

theorem whole_u8 (b : UInt8) : Whole takeU8 [b] b :=
  (Cursor.whole_take InvalidData.truncated [b]).bind_pure (g := fun bytes : Bytes => bytes.headD 0)

theorem whole_u32 (n : UInt32) : Whole takeU32 (putU32 n) n := by
  have hRead := (whole_take (leBytes_length 4 n.toNat)).bind_pure
    (g := fun field : Bytes => UInt32.ofNat (Codec.ofLeBytes field))
  have hBound := n.toNat_lt
  rwa [Codec.ofLeBytes_leBytes (by omega), UInt32.ofNat_toNat] at hRead

theorem whole_u64 (n : UInt64) : Whole takeU64 (putU64 n) n := by
  have hRead := (whole_take (leBytes_length 8 n.toNat)).bind_pure
    (g := fun field : Bytes => UInt64.ofNat (Codec.ofLeBytes field))
  have hBound := n.toNat_lt
  rwa [Codec.ofLeBytes_leBytes (by omega), UInt64.ofNat_toNat] at hRead

def Carries {α : Type} (put : α → Option Bytes) (field : Reader α) : Prop :=
  ∀ {a : α} {buf : Bytes}, put a = some buf → Whole field buf a

section Carries

variable {α : Type} {put : α → Option Bytes} {field : Reader α}

theorem putBytes_eq_some {bytes buf : Bytes} :
    putBytes bytes = some buf ↔ bytes.length < 2 ^ 32 ∧ Codec.putBytes bytes = buf := by
  unfold putBytes
  split
  next hFits => exact ⟨fun h => ⟨hFits, Option.some_inj.mp h⟩, fun h => congrArg some h.2⟩
  next hLong => exact ⟨fun h => absurd h (by simp), fun h => absurd h.1 hLong⟩

theorem carries_bytes : Carries putBytes takeBytes := by
  intro bytes buf h
  obtain ⟨hFits, rfl⟩ := putBytes_eq_some.mp h
  have hLen := whole_u32 (UInt32.ofNat bytes.length)
  have hToNat : (UInt32.ofNat bytes.length).toNat = bytes.length := by
    rw [UInt32.toNat_ofNat']
    exact Nat.mod_eq_of_lt hFits
  have hBody : Whole (take InvalidData.truncated (UInt32.ofNat bytes.length).toNat) bytes bytes :=
    whole_take hToNat.symm
  have hAll := hLen.bind (f := fun len => take .truncated len.toNat) hBody
  rw [putU32, hToNat] at hAll
  exact hAll

theorem carries_u32 : Carries (some ∘ putU32) takeU32 := by
  intro n buf h
  obtain rfl := Option.some_inj.mp h
  exact whole_u32 n

theorem Carries.flagged (h : Carries put field) (bad : InvalidData) :
    Carries (putFlagged put) (takeFlagged bad field) := by
  intro a buf hPut
  cases a with
  | none =>
    obtain rfl := Option.some_inj.mp hPut
    exact (whole_u8 0).bind (Whole.pure none)
  | some a =>
    obtain ⟨buf, hBuf, rfl⟩ := Option.map_eq_some_iff.mp hPut
    exact (whole_u8 1).bind ((h hBuf).map some)

/-- The buffers of some records, each by itself. -/
theorem putAll_eq_some {as : List α} {buf : Bytes} (h : putAll put as = some buf) :
    (∀ a ∈ as, put a = some ((put a).getD [])) ∧ buf = as.flatMap fun a => (put a).getD [] := by
  induction as generalizing buf with
  | nil =>
    obtain rfl := Option.some_inj.mp h
    exact ⟨by simp, rfl⟩
  | cons a as ih =>
    obtain ⟨first, hFirst, hRest⟩ := Option.bind_eq_some_iff.mp h
    obtain ⟨bufs, hBufs, hAll⟩ := Option.bind_eq_some_iff.mp hRest
    obtain rfl := Option.some_inj.mp hAll
    obtain ⟨hEach, rfl⟩ := ih hBufs
    refine ⟨fun b hb => ?_, ?_⟩
    · obtain rfl | hb := List.mem_cons.mp hb
      · rw [hFirst]
        rfl
      · exact hEach b hb
    · rw [List.flatMap_cons, hFirst]
      rfl

theorem Carries.all (h : Carries put field) {as : List α} {buf : Bytes} (hPut : putAll put as = some buf) :
    Whole (field.times as.length) buf as := by
  obtain ⟨hEach, rfl⟩ := putAll_eq_some hPut
  have hTimes := Whole.times id fun a ha => h (hEach a ha)
  rwa [List.map_id] at hTimes

end Carries

theorem carries_version : Carries versionBuf takeVersion := by
  intro v buf h
  obtain ⟨name, hName, h⟩ := Option.bind_eq_some_iff.mp h
  obtain ⟨origin, hOrigin, h⟩ := Option.bind_eq_some_iff.mp h
  obtain ⟨state, hState, h⟩ := Option.bind_eq_some_iff.mp h
  obtain rfl := Option.some_inj.mp h
  exact (carries_bytes hName).bind ((whole_u64 v.seq).bind
    ((carries_bytes.flagged .badOriginFlag hOrigin).bind ((whole_u64 v.ordinal).bind
      (carries_bytes hState).bind_pure)))

theorem carries_branch : Carries branchBuf takeBranch := by
  intro b buf h
  obtain ⟨name, hName, h⟩ := Option.bind_eq_some_iff.mp h
  obtain rfl := Option.some_inj.mp h
  have hFlag := (whole_u8 (if b.published then 1 else 0)).bind_pure
    (g := fun published => BranchRecord.mk b.name b.forkPoint b.head (published != 0))
  have hPublished : ((if b.published then 1 else 0 : UInt8) != 0) = b.published := by
    cases b.published <;> rfl
  rw [hPublished] at hFlag
  exact (carries_bytes hName).bind ((whole_u64 b.forkPoint).bind ((whole_u64 b.head).bind hFlag))

theorem carries_governing : Carries governingBuf takeGoverning := by
  intro g buf h
  obtain ⟨app, hApp, h⟩ := Option.bind_eq_some_iff.mp h
  obtain rfl := Option.some_inj.mp h
  exact (carries_bytes hApp).bind (whole_u32 g.2).bind_pure

theorem fromBytes_putClient (client : ClientId) : fromBytes (Codec.putClient client) = client := by
  have hWidth : (2 : Nat) ^ 128 = 256 ^ 16 := by decide
  unfold fromBytes
  change (⟨Fin.ofNat _ (Codec.ofLeBytes (leBytes 16 client.bytes).reverse.reverse)⟩ : ClientId) = _
  rw [List.reverse_reverse, Codec.ofLeBytes_leBytes (client.bytes.isLt.trans_eq hWidth)]
  exact congrArg ClientId.mk (Fin.ext (Nat.mod_eq_of_lt client.bytes.isLt))

theorem carries_claim : Carries claimBuf takeClaim := by
  intro claim buf h
  obtain ⟨actor, hActor, h⟩ := Option.bind_eq_some_iff.mp h
  obtain rfl := Option.some_inj.mp h
  have hId := Whole.times (l := Codec.putClient claim.1) id fun b _ => whole_u8 b
  have hLength : (Codec.putClient claim.1).length = 16 := by
    change (leBytes 16 claim.1.bytes).reverse.length = 16
    rw [List.length_reverse, leBytes_length]
  rw [List.map_id, hLength, List.flatMap_singleton'] at hId
  have hActorRead := (carries_bytes hActor).bind_pure
    (g := fun actor => (fromBytes (Codec.putClient claim.1), actor))
  have hClaim := hId.bind (f := fun id => takeBytes >>= fun actor => pure (fromBytes id, actor))
    hActorRead
  rw [fromBytes_putClient] at hClaim
  exact hClaim

/-- A metadata record holds the fields, and as many claims as its count can tell. -/
theorem whole_meta {m : MetaRecord} {buf : Bytes} (h : metaBuf m = some buf) :
    Whole takeMeta buf { m with clientActors := m.clientActors.take (claimCount m.clientActors) } := by
  obtain ⟨governing, hGoverning, h⟩ := Option.bind_eq_some_iff.mp h
  obtain ⟨maxOpVersion, hMax, h⟩ := Option.bind_eq_some_iff.mp h
  obtain ⟨creator, hCreator, h⟩ := Option.bind_eq_some_iff.mp h
  obtain ⟨claims, hClaims, h⟩ := Option.bind_eq_some_iff.mp h
  obtain rfl := Option.some_inj.mp h
  have hCount : claimCount m.clientActors < 2 ^ 32 ∧ claimCount m.clientActors ≤ m.clientActors.length := by
    unfold claimCount
    omega
  have hToNat : (UInt32.ofNat (claimCount m.clientActors)).toNat = claimCount m.clientActors := by
    rw [UInt32.toNat_ofNat']
    exact Nat.mod_eq_of_lt hCount.1
  have hLen := whole_u32 (UInt32.ofNat (claimCount m.clientActors))
  rw [putU32, hToNat] at hLen
  have hAll := carries_claim.all hClaims
  rw [List.length_take_of_le hCount.2] at hAll
  have hClaimsRead : Whole (takeClaim.times (UInt32.ofNat (claimCount m.clientActors)).toNat) claims
      (m.clientActors.take (claimCount m.clientActors)) := by
    rw [hToNat]
    exact hAll
  exact (carries_governing.flagged .truncated hGoverning).bind
    ((carries_u32.flagged .truncated hMax).bind ((carries_bytes.flagged .truncated hCreator).bind
      (hLen.bind hClaimsRead.bind_pure)))

/-! ### Writing a metadata record -/

/-- A string the record would hold is too long for the length in front of it. -/
def MetaRecord.Oversized (m : MetaRecord) : Prop :=
  (∃ g ∈ m.governing, 2 ^ 32 ≤ g.1.length) ∨ (∃ actor ∈ m.creator, 2 ^ 32 ≤ actor.length) ∨
    ∃ claim ∈ m.clientActors.take (2 ^ 32 - 1), 2 ^ 32 ≤ claim.2.length

theorem putBytes_eq_none {bytes : Bytes} : putBytes bytes = none ↔ 2 ^ 32 ≤ bytes.length := by
  unfold putBytes
  split
  next hFits => exact ⟨fun h => absurd h (by simp), fun h => absurd h (by omega)⟩
  next hLong => exact ⟨fun _ => by omega, fun _ => rfl⟩

theorem putFlagged_eq_none {α : Type} {put : α → Option Bytes} {a : Option α} :
    putFlagged put a = none ↔ ∃ b ∈ a, put b = none := by
  cases a with
  | none => simp [putFlagged]
  | some a => simp [putFlagged]

theorem putAll_eq_none {α : Type} {put : α → Option Bytes} {as : List α} :
    putAll put as = none ↔ ∃ a ∈ as, put a = none := by
  induction as with
  | nil => simp [putAll]
  | cons a as ih =>
    have hCons : putAll put (a :: as) = none ↔ put a = none ∨ putAll put as = none := by
      cases hFirst : put a with
      | none => simp [putAll, hFirst]
      | some buf => cases hRest : putAll put as <;> simp [putAll, hFirst, hRest]
    rw [hCons, ih, List.exists_mem_cons_iff]

theorem governingBuf_eq_none {g : Bytes × UInt32} : governingBuf g = none ↔ 2 ^ 32 ≤ g.1.length := by
  rw [← putBytes_eq_none, governingBuf]
  cases putBytes g.1 <;> simp

theorem claimBuf_eq_none {claim : ClientId × Bytes} :
    claimBuf claim = none ↔ 2 ^ 32 ≤ claim.2.length := by
  rw [← putBytes_eq_none, claimBuf]
  cases putBytes claim.2 <;> simp

theorem take_claimCount (clientActors : List (ClientId × Bytes)) :
    clientActors.take (claimCount clientActors) = clientActors.take (2 ^ 32 - 1) := by
  rw [claimCount, Nat.min_comm, ← List.take_take, List.take_length]

/-- The write panics exactly on a string that is too long. -/
theorem metaBuf_eq_none {m : MetaRecord} : metaBuf m = none ↔ m.Oversized := by
  have hGoverning : putFlagged governingBuf m.governing = none ↔
      ∃ g ∈ m.governing, 2 ^ 32 ≤ g.1.length := by
    rw [putFlagged_eq_none]
    simp only [governingBuf_eq_none]
  have hMax : ∃ buf, putFlagged (some ∘ putU32) m.maxOpVersion = some buf := by
    cases m.maxOpVersion with
    | none => exact ⟨_, rfl⟩
    | some version => exact ⟨_, rfl⟩
  have hCreator : putFlagged putBytes m.creator = none ↔ ∃ actor ∈ m.creator, 2 ^ 32 ≤ actor.length := by
    rw [putFlagged_eq_none]
    simp only [putBytes_eq_none]
  have hClaims : putAll claimBuf (m.clientActors.take (claimCount m.clientActors)) = none ↔
      ∃ claim ∈ m.clientActors.take (2 ^ 32 - 1), 2 ^ 32 ≤ claim.2.length := by
    rw [putAll_eq_none, take_claimCount]
    simp only [claimBuf_eq_none]
  obtain ⟨maxOpVersion, hMax⟩ := hMax
  unfold MetaRecord.Oversized
  rw [← hGoverning, ← hCreator, ← hClaims]
  unfold metaBuf
  rw [hMax]
  cases putFlagged governingBuf m.governing with
  | none => simp
  | some governing =>
    cases putFlagged putBytes m.creator with
    | none => simp
    | some creator =>
      cases hAll : putAll claimBuf (m.clientActors.take (claimCount m.clientActors)) with
      | none => simp [hAll]
      | some claims => simp [hAll]

/-! ### Faithfulness -/

/-- The committed file of a kind is told apart by its name, and nothing else has that name; the
in-progress file is none of ours. -/
structure NameFaithful (room : RoomId) (kind : FileKind) : Prop where
  told : classify (path room kind) = some (room, kind)
  alone : ∀ room' kind', path room' kind' = path room kind → room' = room ∧ kind' = kind
  uncommitted : ∀ tmp ∈ tmpPath room kind, classify tmp = none

/-- The versions a write leaves are read back, and a shorter front of the file is refused unless it
is what the write of some versions leaves. -/
structure VersionsFaithful (versions : List VersionRecord) : Prop where
  removed : writeVersions versions = .removed → versions = []
  parsed : ∀ bytes, writeVersions versions = .file bytes → parseVersions bytes = .ok versions
  refused : ∀ bytes front, writeVersions versions = .file bytes → front <+: bytes → front ≠ bytes →
    front ≠ [] → (∀ shorter, writeVersions shorter ≠ .file front) →
      ∃ e, parseVersions front = .error e

/-- The metadata a write leaves is read back, and every shorter front of the file loads as
absent. -/
structure MetaFaithful (m : MetaRecord) : Prop where
  removed : writeMeta m = .removed → m.isEmpty
  parsed : ∀ bytes, writeMeta m = .file bytes → parseMeta bytes = some m
  refused : ∀ bytes front, writeMeta m = .file bytes → front <+: bytes → front ≠ bytes →
    parseMeta front = none

structure BranchesFaithful (branches : List BranchRecord) : Prop where
  removed : writeBranches branches = .removed → branches = []
  parsed : ∀ bytes, writeBranches branches = .file bytes → parseBranches bytes = branches

structure EpochFaithful (epoch : UInt64) : Prop where
  removed : writeEpoch epoch = .removed → epoch = 0
  parsed : ∀ bytes, writeEpoch epoch = .file bytes → parseEpoch bytes = some epoch

def SnapshotFaithful (baseSeq : UInt64) (state : Bytes) : Prop :=
  ∀ bytes, compact baseSeq state = .file bytes → parseSnapshot bytes = .ok ⟨baseSeq, state⟩

theorem nameFaithful_iff (room : RoomId) (kind : FileKind) :
    NameFaithful room kind ↔ room ≠ [] ∨ kind.ofBranch := by
  rw [← classify_path]
  exact ⟨NameFaithful.told, fun hTold => ⟨hTold, fun room' kind' h => path_injective h,
    fun tmp hTmp => classify_tmpPath hTmp⟩⟩

theorem Written.ofBuf_eq_file {buf : Option Bytes} {bytes : Bytes} :
    Written.ofBuf buf = .file bytes ↔ buf = some bytes := by
  cases buf with
  | none => simp [ofBuf]
  | some buf => simp [ofBuf]

theorem Written.ofBuf_ne_removed (buf : Option Bytes) : Written.ofBuf buf ≠ .removed := by
  cases buf with
  | none => simp [ofBuf]
  | some buf => simp [ofBuf]

/-- A record is at least the length in front of its name. -/
theorem versionBuf_ne_nil {v : VersionRecord} {buf : Bytes} (h : versionBuf v = some buf) : buf ≠ [] := by
  rintro rfl
  have hRead := (carries_version h).reads []
  cases hRead

theorem branchBuf_ne_nil {b : BranchRecord} {buf : Bytes} (h : branchBuf b = some buf) : buf ≠ [] := by
  rintro rfl
  have hRead := (carries_branch h).reads []
  cases hRead

theorem putAll_of_each {α : Type} {put : α → Option Bytes} {as : List α}
    (h : ∀ a ∈ as, put a = some ((put a).getD [])) :
    putAll put as = some (as.flatMap fun a => (put a).getD []) := by
  induction as with
  | nil => rfl
  | cons a as ih =>
    rw [putAll, h a List.mem_cons_self, ih fun b hb => h b (List.mem_cons_of_mem _ hb)]
    rfl

theorem writeVersions_eq_file {versions : List VersionRecord} {bytes : Bytes} :
    writeVersions versions = .file bytes ↔ versions ≠ [] ∧ putAll versionBuf versions = some bytes := by
  unfold writeVersions
  cases versions with
  | nil => simp
  | cons v vs => simp [Written.ofBuf_eq_file]

theorem writeBranches_eq_file {branches : List BranchRecord} {bytes : Bytes} :
    writeBranches branches = .file bytes ↔ branches ≠ [] ∧ putAll branchBuf branches = some bytes := by
  unfold writeBranches
  cases branches with
  | nil => simp
  | cons b bs => simp [Written.ofBuf_eq_file]

theorem writeMeta_eq_file {m : MetaRecord} {bytes : Bytes} :
    writeMeta m = .file bytes ↔ m.isEmpty = false ∧ metaBuf m = some bytes := by
  unfold writeMeta
  cases m.isEmpty with
  | true => simp
  | false => simp [Written.ofBuf_eq_file]

theorem versionsFaithful (versions : List VersionRecord) : VersionsFaithful versions where
  removed h := by
    cases versions with
    | nil => rfl
    | cons v vs => exact absurd h (Written.ofBuf_ne_removed _)
  parsed bytes h := by
    obtain ⟨hEach, rfl⟩ := putAll_eq_some (writeVersions_eq_file.mp h).2
    have hAll := all_flatMap id
      fun v hv => ⟨carries_version (hEach v hv), versionBuf_ne_nil (hEach v hv)⟩
    rwa [List.map_id] at hAll
  refused bytes front h hFront _ hNonempty hNone := by
    obtain ⟨hEach, rfl⟩ := putAll_eq_some (writeVersions_eq_file.mp h).2
    obtain ⟨k, rfl, -⟩ | hRefused := all_front id
      (fun v hv => ⟨carries_version (hEach v hv), versionBuf_ne_nil (hEach v hv)⟩) hFront
    · refine absurd (writeVersions_eq_file.mpr ⟨?_, ?_⟩) (hNone (versions.take k))
      · intro hTake
        rw [hTake] at hNonempty
        exact hNonempty rfl
      · exact putAll_of_each fun v hv => hEach v (List.mem_of_mem_take hv)
    · exact hRefused

theorem branchesFaithful (branches : List BranchRecord) : BranchesFaithful branches where
  removed h := by
    cases branches with
    | nil => rfl
    | cons b bs => exact absurd h (Written.ofBuf_ne_removed _)
  parsed bytes h := by
    obtain ⟨hEach, rfl⟩ := putAll_eq_some (writeBranches_eq_file.mp h).2
    have hAll := all_flatMap id
      fun b hb => ⟨carries_branch (hEach b hb), branchBuf_ne_nil (hEach b hb)⟩
    rw [List.map_id] at hAll
    unfold parseBranches
    rw [hAll]

/-- What a metadata file is parsed as, whole and cut short. -/
theorem parseMeta_eq {m : MetaRecord} {bytes : Bytes} (front : Bytes) (h : writeMeta m = .file bytes) :
    parseMeta bytes = some { m with clientActors := m.clientActors.take (2 ^ 32 - 1) } ∧
      (front <+: bytes → front ≠ bytes → parseMeta front = none) := by
  obtain ⟨hPresent, hBuf⟩ := writeMeta_eq_file.mp h
  have hWhole := whole_meta hBuf
  rw [take_claimCount] at hWhole
  have hKept : MetaRecord.isEmpty { m with clientActors := m.clientActors.take (2 ^ 32 - 1) } = false := by
    unfold MetaRecord.isEmpty at hPresent ⊢
    cases hActors : m.clientActors with
    | nil =>
      rw [hActors] at hPresent
      exact hPresent
    | cons claim claims => simp
  constructor
  · unfold parseMeta
    rw [hWhole.run]
    dsimp only
    rw [hKept]
    rfl
  · intro hFront hShort
    obtain ⟨e, hFail⟩ := hWhole.refuses front hFront hShort
    unfold parseMeta
    rw [hFail]

theorem metaFaithful_iff (m : MetaRecord) :
    MetaFaithful m ↔ m.clientActors.length < 2 ^ 32 ∨ m.Oversized := by
  constructor
  · intro hFaithful
    by_contra hNeither
    obtain ⟨hMany, hFits⟩ := not_or.mp hNeither
    obtain ⟨bytes, hBuf⟩ := Option.ne_none_iff_exists'.mp (mt metaBuf_eq_none.mp hFits)
    have hPresent : m.isEmpty = false := by
      unfold MetaRecord.isEmpty
      cases hActors : m.clientActors with
      | nil =>
        rw [hActors] at hMany
        exact absurd hMany (by simp)
      | cons claim claims => simp
    have hFile := writeMeta_eq_file.mpr ⟨hPresent, hBuf⟩
    have hParsed := hFaithful.parsed bytes hFile
    rw [(parseMeta_eq bytes hFile).1] at hParsed
    have hTake := congrArg (fun m : MetaRecord => m.clientActors.length) (Option.some_inj.mp hParsed)
    dsimp only at hTake
    rw [List.length_take] at hTake
    omega
  · intro hCondition
    refine ⟨fun hRemoved => ?_, fun bytes hFile => ?_, fun bytes front hFile => (parseMeta_eq front hFile).2⟩
    · cases hPresent : m.isEmpty with
      | true => rfl
      | false =>
        rw [writeMeta, hPresent] at hRemoved
        exact absurd hRemoved (Written.ofBuf_ne_removed _)
    · obtain hFew | hOver := hCondition
      · rw [(parseMeta_eq bytes hFile).1, List.take_of_length_le (by omega)]
      · have hBuf := (writeMeta_eq_file.mp hFile).2
        rw [metaBuf_eq_none.mpr hOver] at hBuf
        cases hBuf

theorem epochFaithful (epoch : UInt64) : EpochFaithful epoch where
  removed h := by
    unfold writeEpoch at h
    split at h
    next hZero => exact hZero
    next => cases h
  parsed bytes h := by
    unfold writeEpoch at h
    split at h
    next => cases h
    next =>
      obtain rfl := Written.file.inj h
      have hBound := epoch.toNat_lt
      rw [parseEpoch, putU64, if_pos (leBytes_length _ _), Codec.ofLeBytes_leBytes (by omega),
        UInt64.ofNat_toNat]

theorem snapshotFaithful (baseSeq : UInt64) (state : Bytes) : SnapshotFaithful baseSeq state := by
  intro bytes h
  obtain rfl := Written.file.inj h
  have hBound := baseSeq.toNat_lt
  have hLength : (putU64 baseSeq).length = 8 := leBytes_length _ _
  have hHeader : ¬(putU64 baseSeq ++ state).length < 8 := by
    rw [List.length_append]
    omega
  have hTake : (putU64 baseSeq ++ state).take 8 = putU64 baseSeq := by
    rw [← hLength, List.take_left]
  have hDrop : (putU64 baseSeq ++ state).drop 8 = state := by
    rw [← hLength, List.drop_left]
  rw [parseSnapshot, if_neg hHeader, hTake, hDrop, putU64, Codec.ofLeBytes_leBytes (by omega),
    UInt64.ofNat_toNat]

/-- Every file is told apart by its name, except a room's own where its id is empty; and every
record is read back, except metadata with more claims than its count can tell. -/
theorem files_faithful (room : RoomId) (kind : FileKind) (versions : List VersionRecord)
    (m : MetaRecord) (branches : List BranchRecord) (epoch baseSeq : UInt64) (state : Bytes) :
    (NameFaithful room kind ↔ room ≠ [] ∨ kind.ofBranch) ∧ VersionsFaithful versions ∧
      (MetaFaithful m ↔ m.clientActors.length < 2 ^ 32 ∨ m.Oversized) ∧
      BranchesFaithful branches ∧ EpochFaithful epoch ∧ SnapshotFaithful baseSeq state :=
  ⟨nameFaithful_iff room kind, versionsFaithful versions, metaFaithful_iff m,
    branchesFaithful branches, epochFaithful epoch, snapshotFaithful baseSeq state⟩

/-- The log of the room with the empty id is a hidden file without an extension, which a load
passes over. -/
theorem empty_room_passed_over :
    path [] .log = ['.', 'l', 'o', 'g'] ∧ classify (path [] .log) = none ∧
      ¬∀ room kind, NameFaithful room kind := by
  refine ⟨rfl, by decide, fun hAll => ?_⟩
  have hTold := (hAll [] .log).told
  exact absurd hTold (by decide)

end CrdtSync.Server.StoreFiles
