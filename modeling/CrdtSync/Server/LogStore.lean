import CrdtSync.Core.CodecRoundTrip
import CrdtSync.Server.Hub

/-!
# The log on disk

One file for each room: its records one after another, each a schema version, a
length and an op. A crash leaves some of the bytes of the append it interrupts. A
record cut short at the end of the file is dropped when the file is read; what is
appended after it is read from wherever the cut record's length says it ends.
-/

namespace CrdtSync

namespace Server

open Codec
open Std (ExtTreeMap)

/-- One logged op with the schema version it was created under. -/
structure StoredOp where
  op : Op
  schemaVersion : Option Nat
deriving DecidableEq

structure Store where
  logs : ExtTreeMap RoomId Bytes compare

/-- The next record of a file and what follows it, unless the file ends first. -/
def nextRecord (bytes : Bytes) : Option (Nat × Bytes × Bytes) :=
  if bytes.length < 8 then none
  else
    let version := ofLeBytes (bytes.take 4)
    let len := ofLeBytes ((bytes.drop 4).take 4)
    let rest := bytes.drop 8
    if rest.length < len then none else some (version, rest.take len, rest.drop len)

def decodeLoop : Nat → Bytes → Except Codec.DecodeError (List StoredOp)
  | 0, _ => .ok []
  | fuel + 1, bytes =>
    match nextRecord bytes with
    | none => .ok []
    | some (version, body, rest) => do
      let op ← decodeOp body
      let ops ← decodeLoop fuel rest
      .ok (⟨op, if version ≠ 0 then some version else none⟩ :: ops)

/-- A file's records in order. A torn tail is dropped; a record that is all there and
does not decode is corruption. -/
def decodeRecords (bytes : Bytes) : Except Codec.DecodeError (List StoredOp) :=
  decodeLoop bytes.length bytes

def tornLoop : Nat → Bytes → Bytes
  | 0, bytes => bytes
  | fuel + 1, bytes =>
    match nextRecord bytes with
    | none => bytes
    | some (_, _, rest) => tornLoop fuel rest

/-- The bytes past a file's last whole record. -/
def tornTail (bytes : Bytes) : Bytes := tornLoop bytes.length bytes

/-- What happens to a store: an append that returns, one that a crash interrupts with
`kept` bytes of it written, and opening and reading the store again. -/
inductive LogEvent
  | append (room : RoomId) (ops : List StoredOp)
  | crash (room : RoomId) (ops : List StoredOp) (kept : Nat)
  | load

namespace StoredOp

variable [IdHash]

/-- A record: the version, `0` for none, the length, then the op. -/
def frame (rec : StoredOp) : Bytes :=
  putU32 (rec.schemaVersion.getD 0) ++ (putU32 (encodeOp rec.op).length ++ encodeOp rec.op)

/-- The op is one that is read back, and an enforced version is at least `1`. -/
def fits (rec : StoredOp) : Bool :=
  rec.op.fits && bytesFit (encodeOp rec.op) &&
    rec.schemaVersion.all fun version => decide (1 ≤ version ∧ version < 2 ^ 32)

/-- The record with every id of its op as its bytes name it. -/
def raw (rec : StoredOp) : StoredOp := { rec with op := rec.op.raw }

end StoredOp

/-- The records of an append that lie within its first `kept` bytes. -/
def wholeRecords [IdHash] : List StoredOp → Nat → List StoredOp
  | [], _ => []
  | rec :: recs, kept =>
    if rec.frame.length ≤ kept then rec :: wholeRecords recs (kept - rec.frame.length) else []

/-- The records a history put on disk for a room. -/
def LogEvent.recorded [IdHash] (room : RoomId) : LogEvent → List StoredOp
  | .append other ops => if other = room then ops else []
  | .crash other ops kept => if other = room then wholeRecords ops kept else []
  | .load => []

/-- The records of a room whose append returned. -/
def LogEvent.acknowledged (room : RoomId) : LogEvent → List StoredOp
  | .append other ops => if other = room then ops else []
  | .crash _ _ _ => []
  | .load => []

namespace Store

def empty : Store := ⟨∅⟩

def log (s : Store) (room : RoomId) : Bytes := s.logs[room]?.getD []

def write (s : Store) (room : RoomId) (bytes : Bytes) : Store :=
  ⟨s.logs.insert room (s.log room ++ bytes)⟩

def load (s : Store) : Except Codec.DecodeError (List (RoomId × List StoredOp)) :=
  s.logs.toList.mapM fun entry => (decodeRecords entry.2).map fun ops => (entry.1, ops)

variable [IdHash]

def append (s : Store) (room : RoomId) (ops : List StoredOp) : Store :=
  if ops.isEmpty then s else s.write room (ops.flatMap StoredOp.frame)

/-- An append of which only the first bytes reach the disk. -/
def tear (s : Store) (room : RoomId) (ops : List StoredOp) (kept : Nat) : Store :=
  if ops.isEmpty then s else s.write room ((ops.flatMap StoredOp.frame).take kept)

def step (s : Store) : LogEvent → Store
  | .append room ops => s.append room ops
  | .crash room ops kept => s.tear room ops kept
  | .load => s

def run (s : Store) (events : List LogEvent) : Store := events.foldl step s

/-- Whatever is written is made of records that fit, and is written where the room's log
ends with a whole record. -/
def WritesWhole (s : Store) : LogEvent → Prop
  | .append room ops => (∀ rec ∈ ops, rec.fits) ∧ (ops ≠ [] → tornTail (s.log room) = [])
  | .crash room ops kept =>
    (∀ rec ∈ ops, rec.fits) ∧ (ops ≠ [] ∧ 0 < kept → tornTail (s.log room) = [])
  | .load => True

def RunWritesWhole (s : Store) : List LogEvent → Prop
  | [] => True
  | event :: events => s.WritesWhole event ∧ (s.step event).RunWritesWhole events

instance (s : Store) : (event : LogEvent) → Decidable (s.WritesWhole event)
  | .append _ _ => inferInstanceAs (Decidable (_ ∧ _))
  | .crash _ _ _ => inferInstanceAs (Decidable (_ ∧ _))
  | .load => inferInstanceAs (Decidable True)

instance : (s : Store) → (events : List LogEvent) → Decidable (s.RunWritesWhole events)
  | _, [] => inferInstanceAs (Decidable True)
  | s, event :: events =>
    have := instDecidableRunWritesWhole (s.step event) events
    inferInstanceAs (Decidable (_ ∧ _))

end Store

section Framing

variable [IdHash]

/-- Bytes a crash can leave of a record: some of them, but not all. -/
def Torn (t : Bytes) : Prop :=
  t = [] ∨ ∃ rec : StoredOp, rec.fits ∧ t <+: rec.frame ∧ t.length < rec.frame.length

theorem length_frame (rec : StoredOp) : rec.frame.length = 8 + (encodeOp rec.op).length := by
  simp only [StoredOp.frame, putU32, List.length_append, leBytes_length]
  omega

theorem nextRecord_frame {rec : StoredOp} (h : rec.fits) (rest : Bytes) :
    nextRecord (rec.frame ++ rest) =
      some (rec.schemaVersion.getD 0, encodeOp rec.op, rest) := by
  simp only [StoredOp.fits, Bool.and_eq_true] at h
  obtain ⟨⟨-, hBody⟩, hVersion⟩ := h
  have hVersionFits : rec.schemaVersion.getD 0 < 256 ^ 4 := by
    cases hSome : rec.schemaVersion with
    | none => simp
    | some version =>
      rw [hSome] at hVersion
      have hRange := (of_decide_eq_true hVersion).2
      simpa using hRange
  have hLength : (encodeOp rec.op).length < 256 ^ 4 := by
    have hRange : (encodeOp rec.op).length < 2 ^ 32 := of_decide_eq_true hBody
    omega
  have hVersionBytes := leBytes_length 4 (rec.schemaVersion.getD 0)
  have hLengthBytes := leBytes_length 4 (encodeOp rec.op).length
  have hAll : rec.frame ++ rest = leBytes 4 (rec.schemaVersion.getD 0) ++
      (leBytes 4 (encodeOp rec.op).length ++ (encodeOp rec.op ++ rest)) := by
    simp [StoredOp.frame, putU32]
  have hHeader : ¬(rec.frame ++ rest).length < 8 := by
    rw [List.length_append, length_frame]
    omega
  have hTakeVersion : (rec.frame ++ rest).take 4 = leBytes 4 (rec.schemaVersion.getD 0) := by
    rw [hAll, List.take_left' hVersionBytes]
  have hDropVersion : (rec.frame ++ rest).drop 4 =
      leBytes 4 (encodeOp rec.op).length ++ (encodeOp rec.op ++ rest) := by
    rw [hAll, List.drop_left' hVersionBytes]
  have hTakeLength : ((rec.frame ++ rest).drop 4).take 4 = leBytes 4 (encodeOp rec.op).length := by
    rw [hDropVersion, List.take_left' hLengthBytes]
  have hDrop : (rec.frame ++ rest).drop 8 = encodeOp rec.op ++ rest := by
    rw [show (8 : Nat) = 4 + 4 from rfl, ← List.drop_drop, hDropVersion, List.drop_left' hLengthBytes]
  unfold nextRecord
  rw [if_neg hHeader]
  dsimp only
  rw [hTakeVersion, hTakeLength, hDrop, ofLeBytes_leBytes hVersionFits, ofLeBytes_leBytes hLength,
    if_neg (by simp), List.take_left, List.drop_left]

/-- A record that is cut short is not read. -/
theorem nextRecord_torn {t : Bytes} (h : Torn t) : nextRecord t = none := by
  obtain rfl | ⟨rec, hFits, hInitial, hShort⟩ := h
  · rfl
  unfold nextRecord
  split
  · rfl
  · next hHeader =>
    obtain ⟨missing, hFrame⟩ := hInitial
    have hLength : (encodeOp rec.op).length < 256 ^ 4 := by
      simp only [StoredOp.fits, Bool.and_eq_true] at hFits
      have hRange : (encodeOp rec.op).length < 2 ^ 32 := of_decide_eq_true hFits.1.2
      omega
    -- the header is whole, and states more bytes than there are
    have hRead : (t.drop 4).take 4 = leBytes 4 (encodeOp rec.op).length := by
      have hSame : (t.drop 4).take 4 = (rec.frame.drop 4).take 4 := by
        rw [← hFrame, List.drop_append_of_le_length (by omega),
          List.take_append_of_le_length (by rw [List.length_drop]; omega)]
      rw [hSame, StoredOp.frame, putU32, putU32, List.drop_left' (leBytes_length ..),
        List.take_left' (leBytes_length ..)]
    have hMissing : (t.drop 8).length < (encodeOp rec.op).length := by
      rw [length_frame] at hShort
      rw [List.length_drop]
      omega
    dsimp only
    rw [hRead, ofLeBytes_leBytes hLength, if_pos hMissing]

theorem decodeLoop_frames {recs : List StoredOp} (hFits : ∀ rec ∈ recs, rec.fits) {t : Bytes}
    (hTorn : Torn t) {fuel : Nat} (hFuel : recs.length ≤ fuel) :
    decodeLoop fuel (recs.flatMap StoredOp.frame ++ t) = .ok (recs.map StoredOp.raw) := by
  induction recs generalizing fuel with
  | nil =>
    cases fuel with
    | zero => rfl
    | succ fuel =>
      rw [List.flatMap_nil, List.nil_append, decodeLoop, nextRecord_torn hTorn]
      rfl
  | cons rec recs ih =>
    obtain _ | fuel := fuel
    · simp at hFuel
    have hRec := hFits rec List.mem_cons_self
    have hRest := ih (fun other hOther => hFits other (List.mem_cons_of_mem _ hOther))
      (Nat.le_of_succ_le_succ hFuel)
    have hOp : decodeOp (encodeOp rec.op) = .ok rec.op.raw := by
      simp only [StoredOp.fits, Bool.and_eq_true] at hRec
      exact decodeOp_encodeOp hRec.1.1
    have hVersion : (if rec.schemaVersion.getD 0 ≠ 0 then some (rec.schemaVersion.getD 0) else none) =
        rec.schemaVersion := by
      simp only [StoredOp.fits, Bool.and_eq_true] at hRec
      cases hSome : rec.schemaVersion with
      | none => rfl
      | some version =>
        have hRange := hRec.2
        rw [hSome] at hRange
        have hPositive := (of_decide_eq_true hRange).1
        rw [Option.getD_some, if_pos (by omega)]
    rw [List.flatMap_cons, List.append_assoc, decodeLoop, nextRecord_frame hRec]
    dsimp only
    rw [hOp, hRest, hVersion]
    rfl

theorem tornLoop_frames {recs : List StoredOp} (hFits : ∀ rec ∈ recs, rec.fits) {t : Bytes}
    (hTorn : Torn t) {fuel : Nat} (hFuel : recs.length ≤ fuel) :
    tornLoop fuel (recs.flatMap StoredOp.frame ++ t) = t := by
  induction recs generalizing fuel with
  | nil =>
    cases fuel with
    | zero => rfl
    | succ fuel => rw [List.flatMap_nil, List.nil_append, tornLoop, nextRecord_torn hTorn]
  | cons rec recs ih =>
    obtain _ | fuel := fuel
    · simp at hFuel
    rw [List.flatMap_cons, List.append_assoc, tornLoop,
      nextRecord_frame (hFits rec List.mem_cons_self)]
    exact ih (fun other hOther => hFits other (List.mem_cons_of_mem _ hOther))
      (Nat.le_of_succ_le_succ hFuel)

theorem length_le_frames (recs : List StoredOp) :
    recs.length ≤ (recs.flatMap StoredOp.frame).length := by
  induction recs with
  | nil => exact le_rfl
  | cons rec recs ih =>
    rw [List.flatMap_cons, List.length_append, List.length_cons, length_frame]
    omega

/-- The first bytes of an append: its whole records, then the bytes of one cut short. -/
theorem take_frames {recs : List StoredOp} (hFits : ∀ rec ∈ recs, rec.fits) (kept : Nat) :
    ∃ t, Torn t ∧ (kept = 0 → t = []) ∧
      (recs.flatMap StoredOp.frame).take kept =
        (wholeRecords recs kept).flatMap StoredOp.frame ++ t := by
  induction recs generalizing kept with
  | nil => exact ⟨[], .inl rfl, fun _ => rfl, by simp [wholeRecords]⟩
  | cons rec recs ih =>
    rw [List.flatMap_cons, wholeRecords]
    split
    · next hWhole =>
      obtain ⟨t, hTorn, -, hTake⟩ := ih (fun other hOther => hFits other
        (List.mem_cons_of_mem _ hOther)) (kept - rec.frame.length)
      refine ⟨t, hTorn, fun hZero => ?_, ?_⟩
      · rw [length_frame] at hWhole
        omega
      · rw [List.take_append, List.take_of_length_le hWhole, hTake, List.flatMap_cons,
          List.append_assoc]
    · next hCut =>
      refine ⟨rec.frame.take kept, .inr ⟨rec, hFits rec List.mem_cons_self,
        List.take_prefix .., ?_⟩, fun hZero => by rw [hZero]; rfl, ?_⟩
      · rw [List.length_take]
        omega
      · rw [List.take_append_of_le_length (by omega)]
        simp

theorem wholeRecords_subset (recs : List StoredOp) (kept : Nat) : wholeRecords recs kept ⊆ recs := by
  induction recs generalizing kept with
  | nil => exact fun _ h => h
  | cons rec recs ih =>
    unfold wholeRecords
    split
    · exact List.cons_subset_cons rec (ih _)
    · exact List.nil_subset _

end Framing

namespace Store

variable [IdHash]

/-- Each room's log is the frames of its records, then what a crash left of one more. -/
def Holds (recorded : RoomId → List StoredOp) (s : Store) : Prop :=
  ∀ room, (∀ rec ∈ recorded room, rec.fits) ∧
    ∃ t, Torn t ∧ s.log room = (recorded room).flatMap StoredOp.frame ++ t

variable {recorded : RoomId → List StoredOp} {s : Store}

omit [IdHash] in
theorem log_write (s : Store) (room other : RoomId) (bytes : Bytes) :
    (s.write room bytes).log other = if other = room then s.log room ++ bytes else s.log other := by
  unfold log write
  rw [Lib.getElem?_insert_ite]
  split
  · rfl
  · rfl

theorem Holds.tornTail (h : s.Holds recorded) {room : RoomId} {t : Bytes} (hTorn : Torn t)
    (hLog : s.log room = (recorded room).flatMap StoredOp.frame ++ t) :
    tornTail (s.log room) = t := by
  rw [hLog]
  refine tornLoop_frames (h room).1 hTorn ?_
  have hLength := length_le_frames (recorded room)
  rw [List.length_append]
  omega

theorem Holds.decodeRecords (h : s.Holds recorded) (room : RoomId) :
    decodeRecords (s.log room) = .ok ((recorded room).map StoredOp.raw) := by
  obtain ⟨hFits, t, hTorn, hLog⟩ := h room
  rw [hLog]
  refine decodeLoop_frames hFits hTorn ?_
  have hLength := length_le_frames (recorded room)
  rw [List.length_append]
  omega

/-- Whole records, and maybe the start of one more, written where the log ends whole. -/
theorem Holds.write (h : s.Holds recorded) (room : RoomId) {recs : List StoredOp} {t bytes : Bytes}
    (hFits : ∀ rec ∈ recs, rec.fits) (hTorn : Torn t)
    (hBytes : bytes = recs.flatMap StoredOp.frame ++ t)
    (hWhole : bytes ≠ [] → Server.tornTail (s.log room) = []) :
    (s.write room bytes).Holds
      fun other => recorded other ++ if room = other then recs else [] := by
  intro other
  obtain ⟨hOld, t', hTorn', hLog⟩ := h other
  rw [log_write]
  by_cases hRoom : other = room
  · subst hRoom
    simp only [if_true]
    refine ⟨fun rec hRec => (List.mem_append.mp hRec).elim (hOld rec) (hFits rec), ?_⟩
    by_cases hEmpty : bytes = []
    · have hNone := hBytes.symm.trans hEmpty
      obtain ⟨hRecs, rfl⟩ := List.append_eq_nil_iff.mp hNone
      exact ⟨t', hTorn', by rw [hEmpty, hLog, List.flatMap_append, hRecs]; simp⟩
    · have hTail : t' = [] := (h.tornTail hTorn' hLog).symm.trans (hWhole hEmpty)
      exact ⟨t, hTorn, by rw [hLog, hTail, hBytes]; simp⟩
  · have hRoom' : ¬room = other := fun hEq => hRoom hEq.symm
    simp only [if_neg hRoom, if_neg hRoom', List.append_nil]
    exact ⟨hOld, t', hTorn', hLog⟩

theorem Holds.step (h : s.Holds recorded) {event : LogEvent} (hWrites : s.WritesWhole event) :
    (s.step event).Holds fun room => recorded room ++ event.recorded room := by
  cases event with
  | append room ops =>
    obtain ⟨hFits, hWhole⟩ := hWrites
    change (s.append room ops).Holds _
    unfold append
    split
    · next hEmpty =>
      obtain rfl := List.isEmpty_iff.mp hEmpty
      simpa [LogEvent.recorded] using h
    · refine h.write room hFits (.inl rfl) (List.append_nil _).symm fun hBytes => hWhole ?_
      rintro rfl
      exact hBytes rfl
  | crash room ops kept =>
    obtain ⟨hFits, hWhole⟩ := hWrites
    change (s.tear room ops kept).Holds _
    unfold tear
    split
    · next hEmpty =>
      obtain rfl := List.isEmpty_iff.mp hEmpty
      simpa [LogEvent.recorded, wholeRecords] using h
    · next hSome =>
      obtain ⟨t, hTorn, -, hTake⟩ := take_frames hFits kept
      refine h.write room (fun rec hRec => hFits rec (wholeRecords_subset ops kept hRec)) hTorn hTake
        fun hBytes => hWhole ⟨by simpa using hSome, Nat.pos_of_ne_zero ?_⟩
      rintro rfl
      exact hBytes rfl
  | load =>
    simp only [LogEvent.recorded, List.append_nil]
    exact h

theorem Holds.run (h : s.Holds recorded) {events : List LogEvent}
    (hWrites : s.RunWritesWhole events) :
    (s.run events).Holds fun room => recorded room ++ events.flatMap (LogEvent.recorded room) := by
  induction events generalizing s recorded with
  | nil =>
    simp only [List.flatMap_nil, List.append_nil]
    exact h
  | cons event events ih =>
    have hRest := ih (h.step hWrites.1) hWrites.2
    simp only [List.append_assoc] at hRest
    exact hRest

theorem holds_empty : empty.Holds fun _ => [] := fun _ => ⟨by simp, [], .inl rfl, by simp [log, empty]⟩

omit [IdHash] in
theorem mapM_eq_ok {α β ε : Type} {f : α → Except ε β} {g : α → β} {l : List α}
    (h : ∀ a ∈ l, f a = .ok (g a)) : l.mapM f = .ok (l.map g) := by
  induction l with
  | nil => rfl
  | cons a l ih =>
    rw [List.mapM_cons, h a List.mem_cons_self, ih fun b hb => h b (List.mem_cons_of_mem _ hb)]
    rfl

theorem Holds.load (h : s.Holds recorded) :
    s.load = .ok (s.logs.toList.map fun entry =>
      (entry.1, (recorded entry.1).map StoredOp.raw)) := by
  refine mapM_eq_ok fun entry hEntry => ?_
  have hLog : s.log entry.1 = entry.2 := by
    rw [log, ExtTreeMap.mem_toList_iff_getElem?_eq_some.mp hEntry]
    rfl
  rw [← hLog, h.decodeRecords]
  rfl

/-- Over a history whose writes all start where the log ends with a whole record, a load
succeeds and returns each room's acknowledged records in order, with those of crashed
appends that reached the disk whole between them. -/
theorem load_returns_recorded (events : List LogEvent) (hWrites : empty.RunWritesWhole events) :
    ∃ rooms, (empty.run events).load = .ok rooms ∧
      (∀ room ops, (room, ops) ∈ rooms →
        ops = (events.flatMap (LogEvent.recorded room)).map StoredOp.raw) ∧
      ∀ room, events.flatMap (LogEvent.recorded room) ≠ [] →
        (room, (events.flatMap (LogEvent.recorded room)).map StoredOp.raw) ∈ rooms := by
  have hRun := holds_empty.run hWrites
  simp only [List.nil_append] at hRun
  refine ⟨_, hRun.load, ?_, ?_⟩
  · intro room ops hMem
    obtain ⟨entry, -, hEntry⟩ := List.mem_map.mp hMem
    obtain ⟨rfl, rfl⟩ := Prod.mk.inj hEntry
    rfl
  · intro room hSome
    obtain ⟨-, t, -, hLog⟩ := hRun room
    have hPresent : (empty.run events).logs[room]? ≠ none := by
      intro hNone
      rw [log, hNone, Option.getD_none] at hLog
      obtain ⟨hFrames, -⟩ := List.append_eq_nil_iff.mp hLog.symm
      have hLength := length_le_frames (events.flatMap (LogEvent.recorded room))
      rw [hFrames] at hLength
      exact hSome (List.eq_nil_of_length_eq_zero (Nat.le_zero.mp hLength))
    obtain ⟨bytes, hBytes⟩ := Option.ne_none_iff_exists'.mp hPresent
    exact List.mem_map.mpr ⟨(room, bytes), ExtTreeMap.mem_toList_iff_getElem?_eq_some.mpr hBytes, rfl⟩

end Store

section Witness

local instance storeIdHash : IdHash := ⟨fun _ _ _ => 0⟩

/-- The `seq`th op of a client, deleting a root slot, with no schema in force. -/
def loggedDelete (seq : Nat) : StoredOp :=
  ⟨⟨⟨⟨1⟩, seq⟩, ⟨seq + 1, ⟨1⟩, 0⟩, .fromBytes 0, .mapDelete [97], none, none⟩, none⟩

/-- A crash in mid-append leaves one whole record of two; the next append comes after it. -/
def cleanCrash : List LogEvent :=
  [.append [114] [loggedDelete 0],
    .crash [114] [loggedDelete 1, loggedDelete 2] (loggedDelete 1).frame.length, .load,
    .append [114] [loggedDelete 3]]

theorem load_returns_recorded_cleanCrash :
    ∃ rooms, (Store.empty.run cleanCrash).load = .ok rooms ∧
      (∀ room ops, (room, ops) ∈ rooms →
        ops = (cleanCrash.flatMap (LogEvent.recorded room)).map StoredOp.raw) ∧
      ∀ room, cleanCrash.flatMap (LogEvent.recorded room) ≠ [] →
        (room, (cleanCrash.flatMap (LogEvent.recorded room)).map StoredOp.raw) ∈ rooms :=
  Store.load_returns_recorded cleanCrash (by decide +kernel)

/-- A crash leaves the version of a record. The append after it gives that version its own
version as a length, so its first record reads as an op of no bytes, and nothing loads. -/
theorem load_fails_after_torn_append :
    ¬∀ events : List LogEvent,
      (∀ event ∈ events, ∀ room ops,
        (event = .append room ops ∨ ∃ kept, event = .crash room ops kept) →
          ∀ rec ∈ ops, rec.fits) →
      ∃ rooms, (Store.empty.run events).load = .ok rooms ∧
        ∀ room, events.flatMap (LogEvent.acknowledged room) ≠ [] → ∃ ops, (room, ops) ∈ rooms ∧
          ((events.flatMap (LogEvent.acknowledged room)).map StoredOp.raw).Sublist ops := by
  intro h
  obtain ⟨rooms, hLoad, -⟩ := h [.crash [114] [loggedDelete 0] 4, .append [114] [loggedDelete 1]] (by
    intro event hEvent room ops hOps rec hRec
    simp only [List.mem_cons, List.not_mem_nil, or_false] at hEvent
    obtain rfl | rfl := hEvent
    · obtain hAppend | ⟨kept, hCrash⟩ := hOps
      · cases hAppend
      · cases hCrash
        rw [List.mem_singleton.mp hRec]
        decide +kernel
    · obtain hAppend | ⟨kept, hCrash⟩ := hOps
      · cases hAppend
        rw [List.mem_singleton.mp hRec]
        decide +kernel
      · cases hCrash)
  have hFails : (Store.empty.run
      [.crash [114] [loggedDelete 0] 4, .append [114] [loggedDelete 1]]).load =
        .error .unexpectedEof := by decide +kernel
  rw [hFails] at hLoad
  cases hLoad

end Witness

end Server

end CrdtSync
