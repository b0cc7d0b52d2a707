import CrdtSync.Core.Codec
import CrdtSync.Lib.Framed
import CrdtSync.Server.Authz

/-!
# The audit trail

One append-only file of length-framed records. An append that fails latches the open
log against further ones; the latch is in memory, so a crash and a reopening lift it
over whatever the interrupted append left behind.
-/

namespace CrdtSync

namespace Server

namespace Audit

open Codec

inductive Decision
  | permitted
  | denied
deriving DecidableEq

inductive AuditResource
  | room (room : Bytes)
  | app (app : Bytes)
  | zone (room zone : Bytes)
deriving DecidableEq

structure AuditRecord where
  timestamp : UInt64
  actor : Bytes
  action : Action
  resource : AuditResource
  decision : Decision
deriving DecidableEq

def actionTag : Action → UInt8
  | .read => 0
  | .write => 1
  | .publishAwareness => 2
  | .registerSchema => 3
  | .connect => 4
  | .export => 5
  | .versionRead => 6

def actionFromTag (tag : UInt8) : Option Action :=
  match tag.toNat with
  | 0 => some .read
  | 1 => some .write
  | 2 => some .publishAwareness
  | 3 => some .registerSchema
  | 4 => some .connect
  | 5 => some .export
  | 6 => some .versionRead
  | _ => none

def decisionTag : Decision → UInt8
  | .permitted => 0
  | .denied => 1

def decisionFromTag (tag : UInt8) : Option Decision :=
  match tag.toNat with
  | 0 => some .permitted
  | 1 => some .denied
  | _ => none

/-- A byte string behind its length. -/
def putBytes (bytes : Bytes) : Bytes := putU32 bytes.length ++ bytes

def encodeResource : AuditResource → Bytes
  | .room room => 0 :: putBytes room
  | .app app => 1 :: putBytes app
  | .zone room zone => 2 :: (putBytes room ++ putBytes zone)

def encodeRecord (record : AuditRecord) : Bytes :=
  putU64 record.timestamp.toNat ++ actionTag record.action :: decisionTag record.decision ::
    (putBytes record.actor ++ encodeResource record.resource)

def takeU8 : Bytes → Option (UInt8 × Bytes)
  | [] => none
  | byte :: rest => some (byte, rest)

def takeU32 (bytes : Bytes) : Option (Nat × Bytes) :=
  if bytes.length < 4 then none else some (ofLeBytes (bytes.take 4), bytes.drop 4)

def takeU64 (bytes : Bytes) : Option (UInt64 × Bytes) :=
  if bytes.length < 8 then none
  else some (UInt64.ofNat (ofLeBytes (bytes.take 8)), bytes.drop 8)

def takeBytes (bytes : Bytes) : Option (Bytes × Bytes) := do
  let (len, rest) ← takeU32 bytes
  if rest.length < len then none else some (rest.take len, rest.drop len)

def takeResource (bytes : Bytes) : Option (AuditResource × Bytes) := do
  let (tag, bytes) ← takeU8 bytes
  match tag.toNat with
  | 0 =>
    let (room, bytes) ← takeBytes bytes
    some (.room room, bytes)
  | 1 =>
    let (app, bytes) ← takeBytes bytes
    some (.app app, bytes)
  | 2 =>
    let (room, bytes) ← takeBytes bytes
    let (zone, bytes) ← takeBytes bytes
    some (.zone room zone, bytes)
  | _ => none

/-- A complete record body, unless it is malformed. -/
def decodeRecord (bytes : Bytes) : Option AuditRecord := do
  let (timestamp, bytes) ← takeU64 bytes
  let (tag, bytes) ← takeU8 bytes
  let action ← actionFromTag tag
  let (tag, bytes) ← takeU8 bytes
  let decision ← decisionFromTag tag
  let (actor, bytes) ← takeBytes bytes
  let (resource, bytes) ← takeResource bytes
  if bytes.length ≠ 0 then none else some ⟨timestamp, actor, action, resource, decision⟩

/-- The field's length fits its prefix; a longer one panics before anything is written. -/
def bytesFit (bytes : Bytes) : Bool := decide (bytes.length < 2 ^ 32)

def AuditResource.fits : AuditResource → Bool
  | .room name => bytesFit name
  | .app name => bytesFit name
  | .zone host name => bytesFit host && bytesFit name

def AuditRecord.fieldsFit (record : AuditRecord) : Bool :=
  bytesFit record.actor && record.resource.fits

def AuditRecord.fits (record : AuditRecord) : Bool :=
  record.fieldsFit && bytesFit (encodeRecord record)

def framed (record : AuditRecord) : Bytes :=
  putU32 (encodeRecord record).length ++ encodeRecord record

/-- The file, and the open log's failure latch while a process has one open. -/
structure AuditLog where
  file : Bytes
  failed : Option Bool

/-- How the write of a frame goes: it returns, it fails with some of the frame on disk, or
the process dies with some of the frame on disk. -/
inductive Append
  | done
  | fails (kept : Nat)
  | dies (kept : Nat)

/-- What of the frame is on disk after the write. -/
def Append.written (frame : Bytes) : Append → Bytes
  | .done => frame
  | .fails kept | .dies kept => frame.take kept

inductive IoError
  | invalidData
deriving DecidableEq

namespace AuditLog

/-- Nothing has been logged. -/
def empty : AuditLog := ⟨[], none⟩

def «open» (log : AuditLog) : AuditLog := { log with failed := some false }

/-- Append one event; the flag is whether the call returned `Ok`. -/
def record (log : AuditLog) (record : AuditRecord) (append : Append) : AuditLog × Bool :=
  match log.failed with
  | none => (log, false)
  | some true =>
    match append with
    | .dies _ => ({ log with failed := none }, false)
    | .done | .fails _ => (log, false)
  | some false =>
    if !record.fits then (log, false)
    else
      let file := log.file ++ append.written (framed record)
      match append with
      | .done => (⟨file, some false⟩, true)
      | .fails _ => (⟨file, some true⟩, false)
      | .dies _ => (⟨file, none⟩, false)

def readLoop : Nat → Bytes → Except IoError (List AuditRecord)
  | 0, _ => .ok []
  | fuel + 1, bytes =>
    if bytes.length < 4 then .ok []
    else
      let len := ofLeBytes (bytes.take 4)
      let rest := bytes.drop 4
      if rest.length < len then .ok []
      else
        match decodeRecord (rest.take len) with
        | none => .error .invalidData
        | some record => do
          let records ← readLoop fuel (rest.drop len)
          .ok (record :: records)

/-- Every stored record, in append order. A torn trailing record is dropped; a whole one that
does not decode is corruption. -/
def readAll (log : AuditLog) : Except IoError (List AuditRecord) :=
  readLoop log.file.length log.file

end AuditLog

/-! ### The frame header -/

/-- The four-byte length the trail frames with. -/
def header : Lib.LengthHeader where
  width := 4
  limit := 2 ^ 32
  put := putU32
  get := ofLeBytes
  width_pos := putU32_width_pos
  length_put := length_putU32
  get_put := ofLeBytes_putU32
  put_get := putU32_ofLeBytes
  get_lt := ofLeBytes_lt_of_length

/-! ### Histories -/

inductive AuditEvent
  | «open»
  | record (record : AuditRecord) (append : Append)

/-- Whether the whole frame reached the disk. -/
def Append.reaches (frame : Bytes) : Append → Bool
  | .done => true
  | .fails kept | .dies kept => decide (frame.length ≤ kept)

def Append.crashes : Append → Bool
  | .dies _ => true
  | .done | .fails _ => false

namespace AuditLog

def step (log : AuditLog) : AuditEvent → AuditLog
  | .open => log.open
  | .record record append => (log.record record append).1

def run (log : AuditLog) (events : List AuditEvent) : AuditLog := events.foldl step log

/-- The log takes writes: it is open and its latch is not set. -/
def live (log : AuditLog) : Bool := decide (log.failed = some false)

/-- What the event owes the trail: the record of a call that returned `Ok`, and that of a
crashed append that reached the disk whole. -/
def owed (log : AuditLog) : AuditEvent → List AuditRecord
  | .open => []
  | .record record append =>
    if (log.record record append).2 ||
        (log.live && record.fits && append.crashes && append.reaches (framed record)) then [record]
    else []

def trail : AuditLog → List AuditEvent → List AuditRecord
  | _, [] => []
  | log, event :: events => log.owed event ++ (log.step event).trail events

/-- The bytes after the last whole frame. -/
def torn (log : AuditLog) : Bytes := (header.split log.file).2

/-- A write that lands a whole frame starts at the end of one, and its call does not fail; any
other leaves the file short of a frame. -/
def WritesWhole (log : AuditLog) : AuditEvent → Prop
  | .open => True
  | .record record append =>
    log.live = true → record.fits = true →
      if append.reaches (framed record) then
        log.torn = [] ∧ (append.crashes = true ∨ (log.record record append).2 = true)
      else header.next (log.torn ++ append.written (framed record)) = none

instance (log : AuditLog) (event : AuditEvent) : Decidable (log.WritesWhole event) :=
  match event with
  | .open => .isTrue trivial
  | .record record append =>
    inferInstanceAs (Decidable (log.live = true → record.fits = true →
      if append.reaches (framed record) then
        log.torn = [] ∧ (append.crashes = true ∨ (log.record record append).2 = true)
      else header.next (log.torn ++ append.written (framed record)) = none))

def RunWritesWhole : AuditLog → List AuditEvent → Prop
  | _, [] => True
  | log, event :: events => log.WritesWhole event ∧ (log.step event).RunWritesWhole events

def decideRun : (log : AuditLog) → (events : List AuditEvent) → Decidable (log.RunWritesWhole events)
  | _, [] => .isTrue trivial
  | log, event :: events =>
    have : Decidable ((log.step event).RunWritesWhole events) := decideRun (log.step event) events
    inferInstanceAs (Decidable (log.WritesWhole event ∧ (log.step event).RunWritesWhole events))

instance (log : AuditLog) (events : List AuditEvent) : Decidable (log.RunWritesWhole events) :=
  decideRun log events

end AuditLog

/-! ### The codec -/

theorem bytesFit_iff {bytes : Bytes} : bytesFit bytes = true ↔ bytes.length < 2 ^ 32 := by
  simp [bytesFit]

theorem takeU8_iff {bytes rest : Bytes} {byte : UInt8} :
    takeU8 bytes = some (byte, rest) ↔ bytes = byte :: rest := by
  cases bytes with
  | nil => simp [takeU8]
  | cons b bytes => simp [takeU8]

theorem takeU64_iff {bytes rest : Bytes} {n : UInt64} :
    takeU64 bytes = some (n, rest) ↔ bytes = putU64 n.toNat ++ rest := by
  constructor
  · intro h
    unfold takeU64 at h
    split at h
    · cases h
    next hLength =>
      obtain ⟨rfl, rfl⟩ := Prod.mk.inj (Option.some.inj h)
      have hTaken : (bytes.take 8).length = 8 := by
        rw [List.length_take]
        omega
      have hLt := ofLeBytes_lt (bytes.take 8)
      rw [hTaken] at hLt
      have hNat : (UInt64.ofNat (ofLeBytes (bytes.take 8))).toNat = ofLeBytes (bytes.take 8) := by
        rw [UInt64.toNat_ofNat']
        exact Nat.mod_eq_of_lt hLt
      have hBack := leBytes_ofLeBytes (bytes.take 8)
      rw [hTaken] at hBack
      rw [hNat, putU64, hBack, List.take_append_drop]
  · rintro rfl
    have hWidth : (putU64 n.toNat).length = 8 := leBytes_length 8 n.toNat
    have hLength : ¬(putU64 n.toNat ++ rest).length < 8 := by
      rw [List.length_append]
      omega
    have hLt : n.toNat < 256 ^ 8 := n.toNat_lt
    rw [takeU64, if_neg hLength, List.take_left' hWidth, List.drop_left' hWidth, putU64,
      ofLeBytes_leBytes hLt, UInt64.ofNat_toNat]

theorem takeBytes_eq (bytes : Bytes) : takeBytes bytes = header.next bytes := by
  unfold takeBytes takeU32 Lib.LengthHeader.next
  by_cases h : bytes.length < 4
  · have hWidth : bytes.length < header.width := h
    rw [if_pos h, if_pos hWidth]
    rfl
  · have hWidth : ¬bytes.length < header.width := h
    rw [if_neg h, if_neg hWidth]
    rfl

theorem takeBytes_iff {bytes body rest : Bytes} :
    takeBytes bytes = some (body, rest) ↔ bytes = putBytes body ++ rest ∧ bytesFit body = true := by
  rw [takeBytes_eq, Lib.LengthHeader.next_eq_some_iff, bytesFit_iff]
  rfl

theorem actionFromTag_iff {tag : UInt8} {action : Action} :
    actionFromTag tag = some action ↔ tag = actionTag action := by
  constructor
  · intro h
    unfold actionFromTag at h
    split at h
    case h_8 => cases h
    all_goals
      next hTag =>
        obtain rfl := Option.some.inj h
        exact UInt8.toNat_inj.mp hTag
  · rintro rfl
    cases action <;> rfl

theorem decisionFromTag_iff {tag : UInt8} {decision : Decision} :
    decisionFromTag tag = some decision ↔ tag = decisionTag decision := by
  constructor
  · intro h
    unfold decisionFromTag at h
    split at h
    case h_3 => cases h
    all_goals
      next hTag =>
        obtain rfl := Option.some.inj h
        exact UInt8.toNat_inj.mp hTag
  · rintro rfl
    cases decision <;> rfl

theorem takeResource_iff {bytes rest : Bytes} {resource : AuditResource} :
    takeResource bytes = some (resource, rest) ↔
      bytes = encodeResource resource ++ rest ∧ resource.fits = true := by
  constructor
  · intro h
    simp only [takeResource, Option.bind_eq_bind, Option.bind_eq_some_iff] at h
    obtain ⟨⟨tag, fields⟩, hTag, h⟩ := h
    obtain rfl := takeU8_iff.mp hTag
    dsimp only at h
    split at h
    · next hZero =>
      obtain ⟨⟨name, left⟩, hName, h⟩ := Option.bind_eq_some_iff.mp h
      obtain ⟨rfl, rfl⟩ := Prod.mk.inj (Option.some.inj h)
      obtain ⟨rfl, hFits⟩ := takeBytes_iff.mp hName
      obtain rfl : tag = 0 := UInt8.toNat_inj.mp hZero
      exact ⟨rfl, hFits⟩
    · next hOne =>
      obtain ⟨⟨name, left⟩, hName, h⟩ := Option.bind_eq_some_iff.mp h
      obtain ⟨rfl, rfl⟩ := Prod.mk.inj (Option.some.inj h)
      obtain ⟨rfl, hFits⟩ := takeBytes_iff.mp hName
      obtain rfl : tag = 1 := UInt8.toNat_inj.mp hOne
      exact ⟨rfl, hFits⟩
    · next hTwo =>
      obtain ⟨⟨host, left⟩, hHost, h⟩ := Option.bind_eq_some_iff.mp h
      obtain ⟨⟨name, left'⟩, hName, h⟩ := Option.bind_eq_some_iff.mp h
      obtain ⟨rfl, rfl⟩ := Prod.mk.inj (Option.some.inj h)
      obtain ⟨rfl, hHostFits⟩ := takeBytes_iff.mp hHost
      obtain ⟨rfl, hNameFits⟩ := takeBytes_iff.mp hName
      obtain rfl : tag = 2 := UInt8.toNat_inj.mp hTwo
      exact ⟨by simp [encodeResource], Bool.and_eq_true_iff.mpr ⟨hHostFits, hNameFits⟩⟩
    · cases h
  · rintro ⟨rfl, hFits⟩
    cases resource with
    | room name =>
      have hName : takeBytes (putBytes name ++ rest) = some (name, rest) :=
        takeBytes_iff.mpr ⟨rfl, hFits⟩
      simp [takeResource, encodeResource, takeU8, hName]
    | app name =>
      have hName : takeBytes (putBytes name ++ rest) = some (name, rest) :=
        takeBytes_iff.mpr ⟨rfl, hFits⟩
      simp [takeResource, encodeResource, takeU8, hName]
    | zone host name =>
      obtain ⟨hHostFits, hNameFits⟩ := Bool.and_eq_true_iff.mp hFits
      have hName : takeBytes (putBytes name ++ rest) = some (name, rest) :=
        takeBytes_iff.mpr ⟨rfl, hNameFits⟩
      have hHost : takeBytes (putBytes host ++ (putBytes name ++ rest)) =
          some (host, putBytes name ++ rest) := takeBytes_iff.mpr ⟨rfl, hHostFits⟩
      simp [takeResource, encodeResource, takeU8, hHost, hName]

theorem decodeRecord_iff {bytes : Bytes} {record : AuditRecord} :
    decodeRecord bytes = some record ↔ bytes = encodeRecord record ∧ record.fieldsFit = true := by
  constructor
  · intro h
    simp only [decodeRecord, Option.bind_eq_bind, Option.bind_eq_some_iff] at h
    obtain ⟨⟨timestamp, b₁⟩, hTimestamp, ⟨tag, b₂⟩, hTag, action, hAction, ⟨tag', b₃⟩, hTag',
      decision, hDecision, ⟨actor, b₄⟩, hActor, ⟨resource, b₅⟩, hResource, h⟩ := h
    split at h
    · cases h
    next hEnd =>
      obtain rfl := Option.some.inj h
      obtain ⟨rfl, hResourceFits⟩ := takeResource_iff.mp hResource
      obtain ⟨rfl, hActorFits⟩ := takeBytes_iff.mp hActor
      obtain rfl := takeU8_iff.mp hTag'
      obtain rfl := takeU8_iff.mp hTag
      obtain rfl := takeU64_iff.mp hTimestamp
      obtain rfl := actionFromTag_iff.mp hAction
      obtain rfl := decisionFromTag_iff.mp hDecision
      have hNil : b₅ = [] := by simpa using hEnd
      subst hNil
      refine ⟨?_, Bool.and_eq_true_iff.mpr ⟨hActorFits, hResourceFits⟩⟩
      simp [encodeRecord]
  · rintro ⟨rfl, hFits⟩
    obtain ⟨hActorFits, hResourceFits⟩ := Bool.and_eq_true_iff.mp hFits
    have hResource : takeResource (encodeResource record.resource) = some (record.resource, []) :=
      takeResource_iff.mpr ⟨(List.append_nil _).symm, hResourceFits⟩
    have hActor : takeBytes (putBytes record.actor ++ encodeResource record.resource) =
        some (record.actor, encodeResource record.resource) := takeBytes_iff.mpr ⟨rfl, hActorFits⟩
    have hTimestamp : takeU64 (encodeRecord record) = some (record.timestamp,
        actionTag record.action :: decisionTag record.decision ::
          (putBytes record.actor ++ encodeResource record.resource)) := takeU64_iff.mpr rfl
    simp [decodeRecord, hTimestamp, takeU8, actionFromTag_iff.mpr rfl,
      decisionFromTag_iff.mpr rfl, hActor, hResource]

/-! ### Reading -/

theorem framed_eq (record : AuditRecord) : framed record = header.frame (encodeRecord record) := rfl

theorem AuditRecord.fits_iff {record : AuditRecord} :
    record.fits = true ↔ record.fieldsFit = true ∧ (encodeRecord record).length < header.limit := by
  rw [AuditRecord.fits, Bool.and_eq_true_iff, bytesFit_iff]
  rfl

namespace AuditLog

theorem readLoop_succ (fuel : Nat) (bytes : Bytes) :
    readLoop (fuel + 1) bytes =
      match header.next bytes with
      | none => .ok []
      | some (body, rest) =>
        match decodeRecord body with
        | none => .error .invalidData
        | some record => readLoop fuel rest >>= fun records => .ok (record :: records) := by
  rw [readLoop]
  unfold Lib.LengthHeader.next
  by_cases hWidth : bytes.length < 4
  · have hHeader : bytes.length < header.width := hWidth
    rw [if_pos hWidth, if_pos hHeader]
  have hHeader : ¬bytes.length < header.width := hWidth
  rw [if_neg hWidth, if_neg hHeader]
  dsimp only
  by_cases hLength : (bytes.drop 4).length < ofLeBytes (bytes.take 4)
  · have hBody : (bytes.drop header.width).length < header.get (bytes.take header.width) := hLength
    rw [if_pos hLength, if_pos hBody]
  · have hBody : ¬(bytes.drop header.width).length < header.get (bytes.take header.width) := hLength
    rw [if_neg hLength, if_neg hBody]
    rfl

theorem readLoop_frames {records : List AuditRecord} (hFits : ∀ record ∈ records, record.fits = true)
    {t : Bytes} (ht : header.next t = none) {fuel : Nat} (hFuel : records.length ≤ fuel) :
    readLoop fuel ((records.map encodeRecord).flatMap header.frame ++ t) = .ok records := by
  induction records generalizing fuel with
  | nil =>
    cases fuel with
    | zero => rfl
    | succ fuel => rw [List.map_nil, List.flatMap_nil, List.nil_append, readLoop_succ, ht]
  | cons record records ih =>
    obtain _ | fuel := fuel
    · simp at hFuel
    obtain ⟨hFields, hBody⟩ := AuditRecord.fits_iff.mp (hFits record List.mem_cons_self)
    have hRest := ih (fun other hOther => hFits other (List.mem_cons_of_mem record hOther))
      (Nat.le_of_succ_le_succ hFuel)
    rw [List.map_cons, List.flatMap_cons, List.append_assoc, readLoop_succ,
      Lib.LengthHeader.next_frame hBody]
    dsimp only
    rw [decodeRecord_iff.mpr ⟨rfl, hFields⟩]
    dsimp only
    rw [hRest]
    rfl

/-- The file holds the records' frames, and after them less than a frame. -/
structure Holds (log : AuditLog) (records : List AuditRecord) : Prop where
  fits : ∀ record ∈ records, record.fits = true
  short : header.next log.torn = none
  file : log.file = (records.map encodeRecord).flatMap header.frame ++ log.torn

variable {log : AuditLog} {records : List AuditRecord}

theorem Holds.of_file (hFits : ∀ record ∈ records, record.fits = true) {t : Bytes}
    (ht : header.next t = none)
    (hFile : log.file = (records.map encodeRecord).flatMap header.frame ++ t) : log.Holds records := by
  have hBodies : ∀ body ∈ records.map encodeRecord, body.length < header.limit := by
    intro body hBody
    obtain ⟨record, hRecord, rfl⟩ := List.mem_map.mp hBody
    exact (AuditRecord.fits_iff.mp (hFits record hRecord)).2
  have hTorn : log.torn = t := by rw [torn, hFile, Lib.LengthHeader.split_frames hBodies ht]
  exact ⟨hFits, by rw [hTorn]; exact ht, by rw [hTorn]; exact hFile⟩

theorem Holds.readAll (h : log.Holds records) : log.readAll = .ok records := by
  rw [AuditLog.readAll, h.file]
  refine readLoop_frames h.fits h.short ?_
  have hLength := Lib.LengthHeader.length_le_frames (H := header) (records.map encodeRecord)
  rw [List.length_map] at hLength
  rw [List.length_append]
  omega

theorem live_iff : log.live = true ↔ log.failed = some false := by simp [live]

/-- A call on a log that takes no writes leaves the file and owes nothing. -/
theorem record_refused (event : AuditRecord) (append : Append)
    (h : log.live = false ∨ event.fits = false) :
    (log.record event append).1.file = log.file ∧ (log.record event append).2 = false := by
  unfold record
  split
  · exact ⟨rfl, rfl⟩
  · cases append <;> exact ⟨rfl, rfl⟩
  next hFailed =>
    obtain hLive | hFits := h
    · rw [live, hFailed] at hLive
      cases hLive
    · rw [hFits]
      exact ⟨rfl, rfl⟩

theorem record_written {event : AuditRecord} (append : Append) (hLive : log.live = true)
    (hFits : event.fits = true) :
    (log.record event append).1.file = log.file ++ append.written (framed event) ∧
      ((log.record event append).2 = true ↔ append = .done) := by
  unfold record
  rw [live_iff.mp hLive]
  dsimp only
  rw [hFits]
  cases append <;> simp

theorem Holds.record_step (h : log.Holds records) (event : AuditRecord) (append : Append)
    (hWhole : log.WritesWhole (.record event append)) :
    (log.record event append).1.Holds (records ++ log.owed (.record event append)) := by
  have hSkip : log.live = false ∨ event.fits = false →
      (log.record event append).1.Holds (records ++ log.owed (.record event append)) := by
    intro hRefused
    obtain ⟨hFile, hErr⟩ := record_refused event append hRefused
    have hOwed : log.owed (.record event append) = [] := by
      rw [owed, hErr]
      obtain hLive | hFits := hRefused
      · simp [hLive]
      · simp [hFits]
    rw [hOwed, List.append_nil]
    exact .of_file h.fits h.short (by rw [hFile]; exact h.file)
  cases hLive : log.live with
  | false => exact hSkip (.inl hLive)
  | true =>
  cases hFits : event.fits with
  | false => exact hSkip (.inr hFits)
  | true =>
  obtain ⟨hFile, hOk⟩ := record_written append hLive hFits
  have hWrites := hWhole hLive hFits
  cases hReaches : append.reaches (framed event) with
  | true =>
    rw [if_pos hReaches] at hWrites
    obtain ⟨hTorn, hReturns⟩ := hWrites
    have hOwed : log.owed (.record event append) = [event] := by
      rw [owed, if_pos]
      obtain hCrash | hReturned := hReturns
      · simp [hLive, hFits, hReaches, hCrash]
      · simp [hReturned]
    have hWritten : append.written (framed event) = framed event := by
      cases append with
      | done => rfl
      | fails kept => exact List.take_of_length_le (of_decide_eq_true hReaches)
      | dies kept => exact List.take_of_length_le (of_decide_eq_true hReaches)
    rw [hOwed]
    refine .of_file (t := []) ?_ Lib.LengthHeader.next_nil ?_
    · intro record hRecord
      obtain hOld | hNew := List.mem_append.mp hRecord
      · exact h.fits record hOld
      · rw [List.mem_singleton.mp hNew]
        exact hFits
    · have hWas := h.file
      rw [hTorn, List.append_nil] at hWas
      rw [hFile, hWritten, hWas, framed_eq]
      simp
  | false =>
    rw [if_neg (by simp [hReaches])] at hWrites
    have hNotOk : (log.record event append).2 = false := by
      cases append with
      | done => cases hReaches
      | fails kept => simpa using hOk
      | dies kept => simpa using hOk
    have hOwed : log.owed (.record event append) = [] := by simp [owed, hNotOk, hReaches]
    rw [hOwed, List.append_nil]
    refine .of_file h.fits hWrites ?_
    rw [hFile, ← List.append_assoc, ← h.file]

theorem Holds.step (h : log.Holds records) (event : AuditEvent) (hWhole : log.WritesWhole event) :
    (log.step event).Holds (records ++ log.owed event) := by
  cases event with
  | «open» =>
    rw [owed, List.append_nil]
    exact .of_file h.fits h.short h.file
  | record event append => exact h.record_step event append hWhole

theorem Holds.run (h : log.Holds records) {events : List AuditEvent}
    (hWhole : log.RunWritesWhole events) : (log.run events).Holds (records ++ log.trail events) := by
  induction events generalizing log records with
  | nil =>
    rw [trail, List.append_nil]
    exact h
  | cons event events ih =>
    obtain ⟨hEvent, hEvents⟩ := hWhole
    rw [trail, ← List.append_assoc]
    exact ih (h.step event hEvent) hEvents

theorem holds_empty : empty.Holds [] :=
  .of_file (by simp) Lib.LengthHeader.next_nil rfl

/-- While no write lands on a torn frame, and no failed call leaves a whole one, the trail is what
the calls and the crashes owe it; and a record and its encoding determine each other. -/
theorem reads_trail {events : List AuditEvent} (h : empty.RunWritesWhole events) :
    (empty.run events).readAll = .ok (empty.trail events) ∧
      (∀ record : AuditRecord, record.fieldsFit = true →
        decodeRecord (encodeRecord record) = some record) ∧
      ∀ (bytes : Bytes) (record : AuditRecord),
        decodeRecord bytes = some record → encodeRecord record = bytes := by
  refine ⟨?_, ?_, ?_⟩
  · have hHolds := holds_empty.run h
    rw [List.nil_append] at hHolds
    exact hHolds.readAll
  · intro record hFits
    exact decodeRecord_iff.mpr ⟨rfl, hFits⟩
  · intro bytes record hDecodes
    exact (decodeRecord_iff.mp hDecodes).1.symm

private def connected : AuditRecord := ⟨7, [65], .connect, .room [82], .permitted⟩

private def refused : AuditRecord := ⟨8, [66], .write, .zone [82] [90], .denied⟩

/-- A write that fails inside the second frame latches the log: the third call is refused, and
the first record is read back after a restart. -/
private def tornAtTheEnd : List AuditEvent :=
  [.open, .record connected .done, .record refused (.fails 9), .record connected .done, .open]

theorem reads_trail_before_tear :
    (empty.run tornAtTheEnd).readAll = .ok (empty.trail tornAtTheEnd) ∧
      empty.trail tornAtTheEnd = [connected] :=
  ⟨(reads_trail (by decide +kernel)).1, by decide +kernel⟩

/-- The crash leaves two bytes; the log opened over them takes a record, returns `Ok`, and the
two bytes read as the start of its length. -/
private def appendedAfterTear : List AuditEvent :=
  [.open, .record connected (.dies 2), .open, .record refused .done]

theorem trail_swallowed :
    empty.trail appendedAfterTear = [refused] ∧ (empty.run appendedAfterTear).readAll = .ok [] := by
  decide +kernel

end AuditLog

end Audit

end Server

end CrdtSync
