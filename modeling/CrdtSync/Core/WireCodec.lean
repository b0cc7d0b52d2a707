import CrdtSync.Core.CanonicalOps
import CrdtSync.Core.Wire

/-!
# Messages read back

Every message whose fields fit is read back from its frame, and a message that is
read has fields that fit and a frame as long as the one it would be written as. It
is that frame, but for the three flags that take any byte for set and the stamps of
an op batch.
-/

namespace CrdtSync.Wire

open Lib Codec Cursor

section Fits

def governingFits : Option (Bytes × Nat) → Prop
  | none => True
  | some g => bytesFit g.1 = true ∧ g.2 < 2 ^ 32

def optU32Fits : Option Nat → Prop
  | none => True
  | some n => n < 2 ^ 32

def countedFits {α : Type} (good : α → Prop) (items : List α) : Prop :=
  items.length < 2 ^ 32 ∧ ∀ a ∈ items, good a

def memberFits (m : MemberAdvert) : Prop :=
  bytesFit m.1 = true ∧ bytesFit m.2.1 = true ∧ m.2.2.1 < 2 ^ 64 ∧ True ∧ True

def headFits (h : Bytes × Nat) : Prop := bytesFit h.1 = true ∧ h.2 < 2 ^ 64

def BranchInfo.Fits (b : BranchInfo) : Prop :=
  bytesFit b.name = true ∧ b.forkPoint < 2 ^ 64 ∧ b.head < 2 ^ 64 ∧ True

/-- What the source's integer types and the length fields hold, field by field as written.
An id is its sixteen bytes. -/
def Message.Fields [IdHash] : Message → Prop
  | .hello _ appId schemaVersion codecs =>
    True ∧ bytesFit appId = true ∧ schemaVersion < 2 ^ 32 ∧ countedFits (· < 2 ^ 32) codecs
  | .codecSelected codec => codec < 2 ^ 32
  | .subscribe channel room branch zone lastSeenSeq => channel < 2 ^ 32 ∧ bytesFit room = true ∧
      bytesFit branch = true ∧ bytesFit zone = true ∧ lastSeenSeq < 2 ^ 64
  | .snapshot channel seq state => channel < 2 ^ 32 ∧ seq < 2 ^ 64 ∧ bytesFit state = true
  | .frontier channel seqs reach =>
    channel < 2 ^ 32 ∧ reach < 2 ^ 64 ∧ countedFits (· < 2 ^ 64) seqs
  | .unsubscribe channel | .versionList channel | .ops channel _ => channel < 2 ^ 32
  | .auth b | .authOk b | .branchList b | .pingReq b => bytesFit b = true
  | .schemaAdvert schemaVersion schema => schemaVersion < 2 ^ 32 ∧ bytesFit schema = true
  | .accepted channel seq | .ack channel seq => channel < 2 ^ 32 ∧ seq < 2 ^ 64
  | .awarenessSet channel a b | .awarenessClearKey channel a b | .versionRename channel a b =>
    channel < 2 ^ 32 ∧ bytesFit a = true ∧ bytesFit b = true
  | .awarenessUpdate channel actor key value =>
    channel < 2 ^ 32 ∧ bytesFit actor = true ∧ bytesFit key = true ∧ bytesFit value = true
  | .awarenessClear channel b | .versionCreate channel b | .versionDelete channel b
  | .versionFetch channel b | .diffResult channel b | .crossZoneOps channel _ b =>
    channel < 2 ^ 32 ∧ bytesFit b = true
  | .versions channel names => channel < 2 ^ 32 ∧ countedFits (bytesFit · = true) names
  | .versionState channel name seq state =>
    channel < 2 ^ 32 ∧ bytesFit name = true ∧ seq < 2 ^ 64 ∧ bytesFit state = true
  | .error _ message details =>
    True ∧ bytesFit (message.flatMap String.utf8EncodeChar) = true ∧ bytesFit details = true
  | .opsRejected channel seqs _ => channel < 2 ^ 32 ∧ True ∧ countedFits (· < 2 ^ 64) seqs
  | .redirect a b | .branchPublish a b | .branchDelete a b | .cloneRoom a b
  | .crossZoneTokenGrant a b | .peerAuth a b => bytesFit a = true ∧ bytesFit b = true
  | .replicaAck room throughSeq => bytesFit room = true ∧ throughSeq < 2 ^ 64
  | .replicateMeta room epoch creator =>
    bytesFit room = true ∧ epoch < 2 ^ 64 ∧ creator.all bytesFit = true
  | .replicateSnapshot room branch seq state epoch creator governing maxOpVersion =>
    bytesFit room = true ∧ bytesFit branch = true ∧ seq < 2 ^ 64 ∧ epoch < 2 ^ 64 ∧
      creator.all bytesFit = true ∧ governingFits governing ∧ optU32Fits maxOpVersion ∧
        bytesFit state = true
  | .replicate room branch _ baseSeq epoch creator governing maxOpVersion =>
    bytesFit room = true ∧ bytesFit branch = true ∧ baseSeq < 2 ^ 64 ∧ epoch < 2 ^ 64 ∧
      creator.all bytesFit = true ∧ governingFits governing ∧ optU32Fits maxOpVersion
  | .followerHeads reporter heads => bytesFit reporter = true ∧ countedFits headFits heads
  | .gossip members => countedFits memberFits members
  | .branches room infos => bytesFit room = true ∧ countedFits BranchInfo.Fits infos
  | .branchFork a b c | .branchForkFromVersion a b c | .branchRestore a b c =>
    bytesFit a = true ∧ bytesFit b = true ∧ bytesFit c = true
  | .diffQuery channel _ a b => channel < 2 ^ 32 ∧ True ∧ bytesFit a = true ∧ bytesFit b = true
  | .cloneRoomResult dst _ => bytesFit dst = true ∧ True
  | .crossZoneToken room element dstZone =>
    bytesFit room = true ∧ element.raw = element ∧ bytesFit dstZone = true
  | .pingAck _ => True

/-- The message with every id as its bytes name it. -/
def Message.raw [IdHash] : Message → Message
  | .ops channel held => .ops channel (held.map Op.raw)
  | .replicate room branch held baseSeq epoch creator governing maxOpVersion =>
    .replicate room branch (held.map Op.raw) baseSeq epoch creator governing maxOpVersion
  | .crossZoneOps channel held token => .crossZoneOps channel (held.map Op.raw) token
  | .crossZoneToken room element dstZone => .crossZoneToken room element.raw dstZone
  | m => m

structure Message.Fits [IdHash] (m : Message) : Prop where
  fields : m.raw.Fields
  ops : ∀ o ∈ m.batch, o.fits = true

/-- How many items the message's lists hold. -/
def Message.items : Message → Nat
  | .hello _ _ _ codecs => codecs.length
  | .frontier _ seqs _ | .opsRejected _ seqs _ => seqs.length
  | .versions _ names => names.length
  | .followerHeads _ heads => heads.length
  | .gossip members => members.length
  | .branches _ infos => infos.length
  | m => m.batch.length

end Fits

section Fields

variable {strict : Prop}

theorem codes_u32 : Codes strict u32 putU32 (· < 2 ^ 32) :=
  ⟨fun _ h => reads_u32 h, .of_eq spells_u32⟩

theorem codes_u64 : Codes strict u64 putU64 (· < 2 ^ 64) :=
  ⟨fun _ h => reads_u64 h, .of_eq spells_u64⟩

theorem codes_bytes : Codes strict bytes putBytes (bytesFit · = true) :=
  ⟨fun _ h => reads_bytes h, .of_eq spells_bytes⟩

theorem codes_optBytes : Codes strict optBytes putOptBytes (·.all bytesFit = true) :=
  ⟨fun _ h => reads_flagged _ h, .of_eq (spells_flagged _)⟩

theorem codes_client : Codes strict client putClient fun _ => True :=
  ⟨fun c _ => reads_client c, .of_eq (spells_client.mono fun _ _ hw => ⟨hw, trivial⟩)⟩

theorem codes_elementId [IdHash] : Codes strict elementId putElementId fun id => id.raw = id where
  reads id h := by
    have hRead := reads_elementId id
    rwa [h] at hRead
  spells := .of_eq spells_elementId

theorem codes_string :
    Codes strict string putString fun s => bytesFit (s.flatMap String.utf8EncodeChar) = true :=
  ⟨fun _ h => reads_string h, .of_eq spells_string⟩

/-- The app and its version. -/
theorem codes_binding : Codes True (both bytes u32) (fun g => putBytes g.1 ++ putU32 g.2)
    fun g => bytesFit g.1 = true ∧ g.2 < 2 ^ 32 :=
  codes_bytes.both codes_u32

theorem codes_optGoverning : Codes strict optGoverning putOptGoverning governingFits where
  reads g h := by
    cases g with
    | none => exact Codec.Reads.tagged (Reads.pure none)
    | some g => exact Codec.Reads.tagged ((codes_binding.reads g h).map some)
  spells := by
    refine .of_eq (Codec.Spells.tagged fun tag => ?_)
    split
    · exact Spells.pure ⟨rfl, trivial⟩
    · refine Spells.map (Spells.mono codes_binding.spells ?_)
      rintro g w ⟨hg, -, hw⟩
      exact ⟨congrArg (1 :: ·) (hw trivial), hg⟩
    · exact Spells.throw _

theorem codes_optU32 : Codes strict optU32 putOptU32 optU32Fits where
  reads n h := by
    cases n with
    | none => exact Codec.Reads.tagged (Reads.pure none)
    | some n => exact Codec.Reads.tagged ((reads_u32 h).map some)
  spells := by
    refine .of_eq (Codec.Spells.tagged fun tag => ?_)
    split
    · exact Spells.pure ⟨rfl, trivial⟩
    · exact Spells.map (spells_u32.mono fun n w hw => ⟨congrArg (1 :: ·) hw.1, hw.2⟩)
    · exact Spells.throw _

theorem codes_memberState :
    Codes strict memberState (fun s => [memberStateTag s]) fun _ => True where
  reads s _ := by
    cases s with
    | alive => exact Codec.Reads.tagged (Reads.pure MemberState.alive)
    | suspect => exact Codec.Reads.tagged (Reads.pure MemberState.suspect)
    | dead => exact Codec.Reads.tagged (Reads.pure MemberState.dead)
  spells := by
    refine .of_eq (Codec.Spells.tagged fun tag => ?_)
    split
    · exact Spells.pure ⟨rfl, trivial⟩
    · exact Spells.pure ⟨rfl, trivial⟩
    · exact Spells.pure ⟨rfl, trivial⟩
    · exact Spells.throw _

theorem codes_diffKind : Codes strict diffKind (fun k => [diffKindTag k]) fun _ => True where
  reads k _ := by
    cases k with
    | versions => exact Codec.Reads.tagged (Reads.pure DiffKind.versions)
    | branches => exact Codec.Reads.tagged (Reads.pure DiffKind.branches)
  spells := by
    refine .of_eq (Codec.Spells.tagged fun tag => ?_)
    split
    · exact Spells.pure ⟨rfl, trivial⟩
    · exact Spells.pure ⟨rfl, trivial⟩
    · exact Spells.throw _

theorem spells_u16 : Spells u16 fun n w => w = putU16 n := by
  refine (spells_take _ 2).bind ?_
  rintro b w ⟨rfl, hLength⟩
  refine Spells.pure ?_
  rw [List.append_nil, putU16, ← hLength, leBytes_ofLeBytes]

theorem codes_errorCode :
    Codes strict errorCode (fun c => putU16 (errorCodeTag c)) fun _ => True where
  reads c _ := by
    have hTag : errorCodeTag c < 256 ^ 2 := by cases c <;> decide
    have hRead : Reads u16 (putU16 (errorCodeTag c)) (errorCodeTag c) := by
      have hBytes := (reads_take (leBytes_length 2 (errorCodeTag c))).bind_pure (g := ofLeBytes)
      rwa [ofLeBytes_leBytes hTag] at hBytes
    rw [← List.append_nil (putU16 _)]
    refine hRead.bind ?_
    cases c <;> exact Reads.pure _
  spells := by
    refine .of_eq (spells_u16.bind ?_)
    rintro tag w rfl
    split
    all_goals first | exact Spells.pure ⟨rfl, trivial⟩ | exact Spells.throw _

/-- A reader of flags that reads the encoder's two bytes and one byte whatever it is. -/
theorem codes_flag : Codes False flag putFlag fun _ => True where
  reads b _ := by
    cases b with
    | false => exact (reads_u8 0).bind_pure (g := fun byte : UInt8 => byte != 0)
    | true => exact (reads_u8 1).bind_pure (g := fun byte : UInt8 => byte != 0)
  spells := by
    refine spells_u8.bind ?_
    rintro byte w rfl
    exact Spells.pure ⟨trivial, rfl, False.elim⟩

theorem codes_strictFlag (what : String) :
    Codes strict (strictFlag what) putFlag fun _ => True where
  reads b _ := by
    cases b with
    | false => exact Codec.Reads.tagged (Reads.pure false)
    | true => exact Codec.Reads.tagged (Reads.pure true)
  spells := by
    refine .of_eq (Codec.Spells.tagged fun tag => ?_)
    split
    · exact Spells.pure ⟨rfl, trivial⟩
    · exact Spells.pure ⟨rfl, trivial⟩
    · exact Spells.throw _

theorem codes_counted {α : Type} {p : Reader α} {put : α → Bytes} {good : α → Prop}
    (h : Codes strict p put good) :
    Codes strict (counted p) (putCounted put) (countedFits good) where
  reads items hItems := by
    refine (reads_u32 hItems.1).bind ?_
    have hAll := Reads.times (l := items) fun a ha => h.reads a (hItems.2 a ha)
    rwa [List.map_id'] at hAll
  spells := by
    refine Spells.bind spells_u32 ?_
    rintro count w ⟨rfl, hCount⟩
    refine Spells.mono (h.times count) ?_
    rintro items w ⟨⟨rfl, hItems⟩, hLength, hw⟩
    refine ⟨⟨hCount, hItems⟩, ?_, fun hStrict => congrArg _ (hw hStrict)⟩
    rw [List.length_append, hLength, putCounted, List.length_append]

theorem codes_head : Codes strict head putHead headFits := codes_bytes.both codes_u64

theorem codes_member : Codes strict member putMember memberFits :=
  codes_bytes.both (codes_bytes.both (codes_u64.both
    (codes_memberState.both (codes_strictFlag _))))

theorem codes_branch {fl : Reader Bool} (hFlag : Codes strict fl putFlag fun _ => True) :
    Codes strict (branch fl) putBranch BranchInfo.Fits :=
  (codes_bytes.both (codes_u64.both (codes_u64.both hFlag))).map (fun _ => rfl) (fun _ h => h)
    fun b hb => ⟨(b.name, b.forkPoint, b.head, b.published), hb, rfl⟩

/-- What is read of the advertisement is what is written of it, none being left out. -/
theorem spells_codecs : SpellsIf strict codecs putCodecs (countedFits (· < 2 ^ 32)) := by
  intro input cs rest hRun
  change codecs input = _ at hRun
  unfold codecs at hRun
  split at hRun
  next hEmpty =>
    cases hRun
    rw [List.isEmpty_iff] at hEmpty
    exact ⟨[], by rw [hEmpty]; rfl, ⟨by decide, fun _ h => nomatch h⟩, rfl, fun _ => rfl⟩
  next =>
    have hSome : Spells (u32 >>= fun count => if count = 0 then throw DecodeError.trailingBytes
        else Cursor.times u32 count) fun cs w =>
          countedFits (· < 2 ^ 32) cs ∧ w = putCodecs cs := by
      refine spells_u32.bind ?_
      rintro count w ⟨rfl, hCount⟩
      split
      next => exact Spells.throw _
      next hPos =>
        have hCodec : Codes True u32 putU32 (· < 2 ^ 32) := codes_u32
        refine Spells.mono (hCodec.times count) ?_
        rintro cs w ⟨⟨rfl, hAll⟩, -, hw⟩
        refine ⟨⟨hCount, hAll⟩, ?_⟩
        have hSome : cs.isEmpty = false := by
          cases cs with
          | nil => exact absurd rfl hPos
          | cons => rfl
        rw [putCodecs, hSome, if_neg Bool.false_ne_true, hw trivial]
        rfl
    obtain ⟨w, rfl, hFits, rfl⟩ := hSome input cs rest hRun
    exact ⟨putCodecs cs, rfl, hFits, rfl, fun _ => rfl⟩

theorem run_codecs {cs : List Nat} (h : countedFits (· < 2 ^ 32) cs) :
    codecs.run (putCodecs cs) = .ok (cs, []) := by
  cases cs with
  | nil => rfl
  | cons c cs =>
    have hRead : Reads (u32 >>= fun count => if count = 0 then throw DecodeError.trailingBytes
        else Cursor.times u32 count) (putCounted putU32 (c :: cs)) (c :: cs) := by
      refine (reads_u32 h.1).bind ?_
      rw [if_neg (by simp)]
      have hAll := Reads.times (l := c :: cs) fun a ha => reads_u32 (h.2 a ha)
      rwa [List.map_id'] at hAll
    have hRun := hRead []
    rw [List.append_nil] at hRun
    exact hRun

end Fields

section Messages

variable [IdHash] {strict : Prop}

/-- The kinds that end in an op batch. -/
def Message.carriesOps : Message → Bool
  | .ops _ _ | .replicate _ _ _ _ _ _ _ _ | .crossZoneOps _ _ _ => true
  | _ => false

/-- What is read after a tag is a message with no batch, as long as its frame. -/
def Framed (strict : Prop) (tag : UInt8) (m : Message) (w : Bytes) : Prop :=
  m.Fields ∧ m.carriesOps = false ∧ (tag :: w).length = (putMessage m).length ∧
    (strict → tag :: w = putMessage m)

theorem framed {α : Type} {p : Reader α} {put : α → Bytes} {good : α → Prop} {tag : UInt8}
    (h : SpellsIf strict p put good) {make : α → Message}
    (hPut : ∀ a, putMessage (make a) = tag :: put a) (hFields : ∀ a, good a → (make a).Fields)
    (hPlain : ∀ a, (make a).carriesOps = false) : Spells (make <$> p) (Framed strict tag) := by
  refine Spells.map (Spells.mono h ?_)
  rintro a w ⟨ha, hLength, hw⟩
  refine ⟨hFields a ha, hPlain a, ?_, fun hStrict => ?_⟩
  · rw [hPut, List.length_cons, List.length_cons, hLength]
  · rw [hPut, hw hStrict]

variable {fl : Reader Bool} (hFlag : Codes strict fl putFlag fun _ => True)
include hFlag

theorem spells_body (tag : UInt8) : Spells (body fl tag) (Framed strict tag) := by
  unfold body
  split
  · exact framed (codes_client.spells.both (codes_bytes.spells.both (codes_u32.spells.both
      spells_codecs))) (fun _ => rfl) (fun _ h => h) fun _ => rfl
  · exact framed codes_u32.spells (fun _ => rfl) (fun _ h => h) fun _ => rfl
  · exact framed (codes_u32.both (codes_bytes.both (codes_bytes.both (codes_bytes.both
      codes_u64)))).spells
      (fun _ => rfl) (fun _ h => h) fun _ => rfl
  · exact framed (codes_errorCode.both (codes_string.both codes_bytes)).spells
      (fun _ => rfl) (fun _ h => h) fun _ => rfl
  · exact framed (codes_u32.both (codes_u64.both codes_bytes)).spells
      (fun _ => rfl) (fun _ h => h) fun _ => rfl
  · exact framed (codes_u32.both (codes_u64.both ((codes_counted codes_u64)))).spells
      (fun _ => rfl) (fun _ h => h) fun _ => rfl
  · exact framed codes_u32.spells (fun _ => rfl) (fun _ h => h) fun _ => rfl
  · exact framed codes_bytes.spells (fun _ => rfl) (fun _ h => h) fun _ => rfl
  · exact framed codes_bytes.spells (fun _ => rfl) (fun _ h => h) fun _ => rfl
  · exact framed (codes_u32.both codes_bytes).spells (fun _ => rfl) (fun _ h => h) fun _ => rfl
  · exact framed (codes_u32.both (codes_bytes.both codes_bytes)).spells
      (fun _ => rfl) (fun _ h => h) fun _ => rfl
  · exact framed (codes_u32.both (codes_bytes.both (codes_bytes.both codes_bytes))).spells
      (fun _ => rfl) (fun _ h => h) fun _ => rfl
  · exact framed (codes_u32.both codes_bytes).spells (fun _ => rfl) (fun _ h => h) fun _ => rfl
  · exact framed (codes_u32.both (codes_bytes.both codes_bytes)).spells
      (fun _ => rfl) (fun _ h => h) fun _ => rfl
  · exact framed (codes_u32.both codes_bytes).spells (fun _ => rfl) (fun _ h => h) fun _ => rfl
  · exact framed (codes_u32.both (codes_bytes.both codes_bytes)).spells
      (fun _ => rfl) (fun _ h => h) fun _ => rfl
  · exact framed (codes_u32.both codes_bytes).spells (fun _ => rfl) (fun _ h => h) fun _ => rfl
  · exact framed codes_u32.spells (fun _ => rfl) (fun _ h => h) fun _ => rfl
  · exact framed (codes_u32.both codes_bytes).spells (fun _ => rfl) (fun _ h => h) fun _ => rfl
  · exact framed (codes_u32.both ((codes_counted codes_bytes))).spells
      (fun _ => rfl) (fun _ h => h) fun _ => rfl
  · exact framed (codes_u32.both (codes_bytes.both (codes_u64.both codes_bytes))).spells
      (fun _ => rfl) (fun _ h => h) fun _ => rfl
  · exact framed (codes_u32.both codes_u64).spells (fun _ => rfl) (fun _ h => h) fun _ => rfl
  · exact framed (codes_u32.both codes_u64).spells (fun _ => rfl) (fun _ h => h) fun _ => rfl
  · exact framed (codes_u32.both (codes_errorCode.both ((codes_counted codes_u64)))).spells
      (fun _ => rfl) (fun _ h => h) fun _ => rfl
  · exact framed (codes_bytes.both codes_bytes).spells (fun _ => rfl) (fun _ h => h) fun _ => rfl
  · exact framed (codes_bytes.both codes_u64).spells (fun _ => rfl) (fun _ h => h) fun _ => rfl
  · exact framed (codes_bytes.both (codes_u64.both codes_optBytes)).spells
      (fun _ => rfl) (fun _ h => h) fun _ => rfl
  · exact framed (codes_bytes.both (codes_bytes.both (codes_u64.both (codes_u64.both
      (codes_optBytes.both (codes_optGoverning.both (codes_optU32.both codes_bytes))))))).spells
      (fun _ => rfl) (fun _ h => h) fun _ => rfl
  · exact framed (codes_bytes.both ((codes_counted codes_head))).spells
      (fun _ => rfl) (fun _ h => h) fun _ => rfl
  · exact framed (codes_counted codes_member).spells (fun _ => rfl) (fun _ h => h) fun _ => rfl
  · exact framed codes_bytes.spells (fun _ => rfl) (fun _ h => h) fun _ => rfl
  · exact framed (codes_bytes.both ((codes_counted (codes_branch hFlag)))).spells
      (fun _ => rfl) (fun _ h => h) fun _ => rfl
  · exact framed (codes_bytes.both (codes_bytes.both codes_bytes)).spells
      (fun _ => rfl) (fun _ h => h) fun _ => rfl
  · exact framed (codes_bytes.both (codes_bytes.both codes_bytes)).spells
      (fun _ => rfl) (fun _ h => h) fun _ => rfl
  · exact framed (codes_bytes.both (codes_bytes.both codes_bytes)).spells
      (fun _ => rfl) (fun _ h => h) fun _ => rfl
  · exact framed (codes_bytes.both codes_bytes).spells (fun _ => rfl) (fun _ h => h) fun _ => rfl
  · exact framed (codes_bytes.both codes_bytes).spells (fun _ => rfl) (fun _ h => h) fun _ => rfl
  · exact framed (codes_u32.both (codes_diffKind.both (codes_bytes.both codes_bytes))).spells
      (fun _ => rfl) (fun _ h => h) fun _ => rfl
  · exact framed (codes_u32.both codes_bytes).spells (fun _ => rfl) (fun _ h => h) fun _ => rfl
  · exact framed (codes_bytes.both codes_bytes).spells (fun _ => rfl) (fun _ h => h) fun _ => rfl
  · exact framed (codes_bytes.both hFlag).spells (fun _ => rfl) (fun _ h => h) fun _ => rfl
  · exact framed (codes_bytes.both (codes_elementId.both codes_bytes)).spells
      (fun _ => rfl) (fun _ h => h) fun _ => rfl
  · exact framed (codes_bytes.both codes_bytes).spells (fun _ => rfl) (fun _ h => h) fun _ => rfl
  · exact framed codes_bytes.spells (fun _ => rfl) (fun _ h => h) fun _ => rfl
  · exact framed hFlag.spells (fun _ => rfl) (fun _ h => h) fun _ => rfl
  · exact framed (codes_bytes.both codes_bytes).spells (fun _ => rfl) (fun _ h => h) fun _ => rfl
  · exact Spells.throw _

end Messages

section Reading

theorem run_map {α : Type} {p : Reader α} {put : α → Bytes} {good : α → Prop}
    (h : Codes False p put good) {a : α} (ha : good a) (make : α → Message) :
    (make <$> p).run (put a) = .ok (make a, []) := by
  have hRun := (h.reads a ha).map make []
  rwa [List.append_nil] at hRun

theorem run_body [IdHash] {fl : Reader Bool} (hFlag : Codes False fl putFlag fun _ => True)
    (m : Message) (hm : m.Fields) (hPlain : m.carriesOps = false) :
    ∃ tag w, putMessage m = tag :: w ∧ (tag ≠ 2 ∧ tag ≠ 24 ∧ tag ≠ 46) ∧
      (body fl tag).run w = .ok (m, []) := by
  cases m with
  | hello client appId schemaVersion codecs =>
    refine ⟨0, _, rfl, by decide, ?_⟩
    change (_ <$> both Codec.client (both bytes (both u32 Wire.codecs))).run
      (putClient client ++ (putBytes appId ++ (putU32 schemaVersion ++ putCodecs codecs))) = _
    have hRun : (both Codec.client (both bytes (both u32 Wire.codecs))).run
        (putClient client ++ (putBytes appId ++ (putU32 schemaVersion ++ putCodecs codecs))) =
        .ok ((client, appId, schemaVersion, codecs), []) := by
      simp only [both, bind_assoc, pure_bind]
      rw [(reads_client client).run_bind, (reads_bytes hm.2.1).run_bind,
        (reads_u32 hm.2.2.1).run_bind, StateT.run_bind, run_codecs hm.2.2.2]
      rfl
    rw [map_eq_pure_bind, StateT.run_bind, hRun]
    rfl
  | codecSelected codec =>
    exact ⟨_, _, rfl, by decide, run_map codes_u32 (a := codec) hm _⟩
  | auth credential =>
    exact ⟨_, _, rfl, by decide, run_map codes_bytes (a := credential) hm _⟩
  | authOk actor =>
    exact ⟨_, _, rfl, by decide, run_map codes_bytes (a := actor) hm _⟩
  | schemaAdvert schemaVersion schema =>
    exact ⟨_, _, rfl, by decide, run_map (codes_u32.both codes_bytes)
      (a := (schemaVersion, schema)) hm _⟩
  | subscribe channel room branch zone lastSeenSeq =>
    exact ⟨_, _, rfl, by decide, run_map (codes_u32.both (codes_bytes.both (codes_bytes.both
      (codes_bytes.both codes_u64)))) (a := (channel, room, branch, zone, lastSeenSeq)) hm _⟩
  | unsubscribe channel =>
    exact ⟨_, _, rfl, by decide, run_map codes_u32 (a := channel) hm _⟩
  | snapshot channel seq state =>
    exact ⟨_, _, rfl, by decide, run_map (codes_u32.both (codes_u64.both codes_bytes))
      (a := (channel, seq, state)) hm _⟩
  | frontier channel seqs reach =>
    exact ⟨_, _, rfl, by decide, run_map (codes_u32.both (codes_u64.both (codes_counted codes_u64)))
      (a := (channel, reach, seqs)) hm _⟩
  | accepted channel through =>
    exact ⟨_, _, rfl, by decide, run_map (codes_u32.both codes_u64) (a := (channel, through)) hm _⟩
  | ack channel seq =>
    exact ⟨_, _, rfl, by decide, run_map (codes_u32.both codes_u64) (a := (channel, seq)) hm _⟩
  | awarenessSet channel key value =>
    exact ⟨_, _, rfl, by decide, run_map (codes_u32.both (codes_bytes.both codes_bytes))
      (a := (channel, key, value)) hm _⟩
  | awarenessUpdate channel actor key value =>
    exact ⟨_, _, rfl, by decide, run_map (codes_u32.both (codes_bytes.both (codes_bytes.both
      codes_bytes))) (a := (channel, actor, key, value)) hm _⟩
  | awarenessClear channel actor =>
    exact ⟨_, _, rfl, by decide, run_map (codes_u32.both codes_bytes) (a := (channel, actor)) hm _⟩
  | awarenessClearKey channel actor key =>
    exact ⟨_, _, rfl, by decide, run_map (codes_u32.both (codes_bytes.both codes_bytes))
      (a := (channel, actor, key)) hm _⟩
  | versionCreate channel name =>
    exact ⟨_, _, rfl, by decide, run_map (codes_u32.both codes_bytes) (a := (channel, name)) hm _⟩
  | versionRename channel old new =>
    exact ⟨_, _, rfl, by decide, run_map (codes_u32.both (codes_bytes.both codes_bytes))
      (a := (channel, old, new)) hm _⟩
  | versionDelete channel name =>
    exact ⟨_, _, rfl, by decide, run_map (codes_u32.both codes_bytes) (a := (channel, name)) hm _⟩
  | versionList channel =>
    exact ⟨_, _, rfl, by decide, run_map codes_u32 (a := channel) hm _⟩
  | versionFetch channel name =>
    exact ⟨_, _, rfl, by decide, run_map (codes_u32.both codes_bytes) (a := (channel, name)) hm _⟩
  | versions channel names =>
    exact ⟨_, _, rfl, by decide, run_map (codes_u32.both (codes_counted codes_bytes))
      (a := (channel, names)) hm _⟩
  | versionState channel name seq state =>
    exact ⟨_, _, rfl, by decide, run_map (codes_u32.both (codes_bytes.both (codes_u64.both
      codes_bytes))) (a := (channel, name, seq, state)) hm _⟩
  | error code message details =>
    exact ⟨_, _, rfl, by decide, run_map (codes_errorCode.both (codes_string.both codes_bytes))
      (a := (code, message, details)) hm _⟩
  | opsRejected channel seqs reason =>
    exact ⟨_, _, rfl, by decide, run_map (codes_u32.both (codes_errorCode.both (codes_counted
      codes_u64))) (a := (channel, reason, seqs)) hm _⟩
  | redirect room leaderAddr =>
    exact ⟨_, _, rfl, by decide, run_map (codes_bytes.both codes_bytes)
      (a := (room, leaderAddr)) hm _⟩
  | replicateMeta room epoch creator =>
    exact ⟨_, _, rfl, by decide, run_map (codes_bytes.both (codes_u64.both codes_optBytes))
      (a := (room, epoch, creator)) hm _⟩
  | replicaAck room throughSeq =>
    exact ⟨_, _, rfl, by decide, run_map (codes_bytes.both codes_u64)
      (a := (room, throughSeq)) hm _⟩
  | replicateSnapshot room branch seq state epoch creator governing maxOpVersion =>
    exact ⟨_, _, rfl, by decide, run_map (codes_bytes.both (codes_bytes.both (codes_u64.both
      (codes_u64.both (codes_optBytes.both (codes_optGoverning.both (codes_optU32.both
      codes_bytes)))))))
      (a := (room, branch, seq, epoch, creator, governing, maxOpVersion, state)) hm _⟩
  | followerHeads reporter heads =>
    exact ⟨_, _, rfl, by decide, run_map (codes_bytes.both (codes_counted codes_head))
      (a := (reporter, heads)) hm _⟩
  | gossip members =>
    exact ⟨_, _, rfl, by decide, run_map (codes_counted codes_member) (a := members) hm _⟩
  | branchList room =>
    exact ⟨_, _, rfl, by decide, run_map codes_bytes (a := room) hm _⟩
  | branches room infos =>
    exact ⟨_, _, rfl, by decide, run_map (codes_bytes.both (codes_counted (codes_branch hFlag)))
      (a := (room, infos)) hm _⟩
  | branchFork room name fromBranch =>
    exact ⟨_, _, rfl, by decide, run_map (codes_bytes.both (codes_bytes.both codes_bytes))
      (a := (room, name, fromBranch)) hm _⟩
  | branchForkFromVersion room name version =>
    exact ⟨_, _, rfl, by decide, run_map (codes_bytes.both (codes_bytes.both codes_bytes))
      (a := (room, name, version)) hm _⟩
  | branchRestore room name version =>
    exact ⟨_, _, rfl, by decide, run_map (codes_bytes.both (codes_bytes.both codes_bytes))
      (a := (room, name, version)) hm _⟩
  | branchPublish room published =>
    exact ⟨_, _, rfl, by decide, run_map (codes_bytes.both codes_bytes)
      (a := (room, published)) hm _⟩
  | branchDelete room name =>
    exact ⟨_, _, rfl, by decide, run_map (codes_bytes.both codes_bytes) (a := (room, name)) hm _⟩
  | diffQuery channel kind a b =>
    exact ⟨_, _, rfl, by decide, run_map (codes_u32.both (codes_diffKind.both (codes_bytes.both
      codes_bytes))) (a := (channel, kind, a, b)) hm _⟩
  | diffResult channel changes =>
    exact ⟨_, _, rfl, by decide, run_map (codes_u32.both codes_bytes)
      (a := (channel, changes)) hm _⟩
  | cloneRoom src dst =>
    exact ⟨_, _, rfl, by decide, run_map (codes_bytes.both codes_bytes) (a := (src, dst)) hm _⟩
  | cloneRoomResult dst created =>
    exact ⟨_, _, rfl, by decide, run_map (codes_bytes.both hFlag) (a := (dst, created)) hm _⟩
  | crossZoneToken room element dstZone =>
    exact ⟨_, _, rfl, by decide, run_map (codes_bytes.both (codes_elementId.both codes_bytes))
      (a := (room, element, dstZone)) hm _⟩
  | crossZoneTokenGrant room token =>
    exact ⟨_, _, rfl, by decide, run_map (codes_bytes.both codes_bytes) (a := (room, token)) hm _⟩
  | pingReq target =>
    exact ⟨_, _, rfl, by decide, run_map codes_bytes (a := target) hm _⟩
  | pingAck reachable =>
    exact ⟨_, _, rfl, by decide, run_map hFlag (a := reachable) hm _⟩
  | peerAuth node secret =>
    exact ⟨_, _, rfl, by decide, run_map (codes_bytes.both codes_bytes) (a := (node, secret)) hm _⟩
  | ops | replicate | crossZoneOps => cases hPlain

end Reading

section Lengths

variable [IdHash]

omit [IdHash] in
theorem length_le_putCounted {α : Type} {put : α → Bytes} (h : ∀ a, 0 < (put a).length)
    (items : List α) : items.length ≤ (putCounted put items).length := by
  rw [putCounted, List.length_append]
  have hItems : items.length ≤ (items.flatMap put).length := by
    induction items with
    | nil => exact Nat.zero_le _
    | cons a items ih =>
      have hPos := h a
      rw [List.flatMap_cons, List.length_append, List.length_cons]
      omega
  omega

/-- A list is no longer than the bytes it is written as. -/
theorem items_le {m : Message} (hPlain : m.carriesOps = false) :
    m.items ≤ (putMessage m).length := by
  have hBytes : ∀ b, 0 < (putBytes b).length := fun b => by
    rw [putBytes, List.length_append, putU32, leBytes_length]
    omega
  have hHead : ∀ h, 0 < (putHead h).length := fun h => by
    rw [putHead, List.length_append]
    exact Nat.add_pos_left (hBytes _) _
  have hMember : ∀ a, 0 < (putMember a).length := fun a => by
    rw [putMember, List.length_append]
    exact Nat.add_pos_left (hBytes _) _
  have hBranch : ∀ b, 0 < (putBranch b).length := fun b => by
    rw [putBranch, List.length_append]
    exact Nat.add_pos_left (hBytes _) _
  have hU32 : ∀ n, 0 < (putU32 n).length := fun n => by rw [putU32, leBytes_length]; decide
  have hU64 : ∀ n, 0 < (putU64 n).length := fun n => by rw [putU64, leBytes_length]; decide
  cases m with
  | hello client appId schemaVersion codecs =>
    have hCodecs : codecs.length ≤ (putCodecs codecs).length := by
      unfold putCodecs
      split
      next hEmpty => rw [List.isEmpty_iff.mp hEmpty]; exact Nat.le_refl 0
      next => exact length_le_putCounted hU32 codecs
    simp only [Message.items, putMessage, List.length_cons, List.length_append]
    omega
  | frontier channel seqs reach =>
    have := length_le_putCounted hU64 seqs
    simp only [Message.items, putMessage, List.length_cons, List.length_append]
    omega
  | versions channel names =>
    have := length_le_putCounted hBytes names
    simp only [Message.items, putMessage, List.length_cons, List.length_append]
    omega
  | opsRejected channel seqs reason =>
    have := length_le_putCounted hU64 seqs
    simp only [Message.items, putMessage, List.length_cons, List.length_append]
    omega
  | followerHeads reporter heads =>
    have := length_le_putCounted hHead heads
    simp only [Message.items, putMessage, List.length_cons, List.length_append]
    omega
  | gossip members =>
    have := length_le_putCounted hMember members
    simp only [Message.items, putMessage, List.length_cons]
    omega
  | branches room infos =>
    have := length_le_putCounted hBranch infos
    simp only [Message.items, putMessage, List.length_cons, List.length_append]
    omega
  | ops | replicate | crossZoneOps => cases hPlain
  | _ => exact Nat.zero_le _

end Lengths

section Frames

variable [IdHash] {strict : Prop} {st : Reader Stamp} {fl : Reader Bool}

/-- A message that is read: its fields and ops fit, its lists are within the frame, and where
`strict` holds the frame is the encoder's. -/
structure Taken (strict : Prop) (b : Bytes) (m : Message) : Prop where
  fields : m.Fields
  ops : ∀ o ∈ m.batch, o.fits = true ∧ o.raw = o
  items : m.items ≤ b.length
  bytes : strict → encodeMessage m = some b

omit [IdHash] in
theorem length_decodeFrames {decode : Bytes → Except DecodeError Op} {fuel : Nat} {b : Bytes}
    {ops : List Op} (h : decodeFrames decode fuel b = .ok ops) : ops.length ≤ b.length := by
  induction fuel generalizing b ops with
  | zero =>
    cases h
    exact Nat.zero_le _
  | succ fuel ih =>
    rw [decodeFrames] at h
    split at h
    next =>
      cases h
      exact Nat.zero_le _
    next =>
      split at h
      next => cases h
      next frame rest hFrame =>
        obtain ⟨w, rfl, rfl, -⟩ := spells_bytes b frame rest hFrame
        cases hOp : decode frame with
        | error e =>
          rw [hOp] at h
          cases h
        | ok o =>
          cases hRest : decodeFrames decode fuel rest with
          | error e =>
            rw [hOp, hRest] at h
            cases h
          | ok ops' =>
            rw [hOp, hRest] at h
            cases h
            have hTail := ih hRest
            rw [List.length_append, putBytes, List.length_append, putU32, leBytes_length]
            rw [List.length_cons]
            omega

omit [IdHash] in
theorem decodeOver_plain {tag : UInt8} (hTag : tag ≠ 2 ∧ tag ≠ 24 ∧ tag ≠ 46) (w : Bytes) :
    decodeOver st fl (tag :: w) =
      match (body fl tag).run w with
      | .error e => .error (.ofDecode e)
      | .ok (m, []) => .ok m
      | .ok (_, _ :: _) => .error .trailingBytes := by
  have hRun : u8.run (tag :: w) = .ok (tag, w) := reads_u8 tag w
  rw [decodeOver, hRun]
  split
  next h => cases h
  next h =>
    obtain ⟨rfl, -⟩ := Prod.mk.inj (Except.ok.inj h)
    exact absurd rfl hTag.1
  next h =>
    obtain ⟨rfl, -⟩ := Prod.mk.inj (Except.ok.inj h)
    exact absurd rfl hTag.2.1
  next h =>
    obtain ⟨rfl, -⟩ := Prod.mk.inj (Except.ok.inj h)
    exact absurd rfl hTag.2.2
  next h =>
    obtain ⟨rfl, rfl⟩ := Prod.mk.inj (Except.ok.inj h)
    rfl

section Batches

variable {α : Type} {p : Reader α} {put : α → Bytes} {good : α → Prop}
variable {make : α → List Op → Message}

/-- The batch is what is left of the frame. -/
theorem batched_reads (hst : ReadsStamps st) (hp : Codes False p put good) {a : α} (ha : good a)
    {ops : List Op} (hFits : ∀ o ∈ ops, o.fits = true) {b : Bytes} (hOps : encodeOps ops = some b) :
    batched st p make (put a ++ b) = .ok (make a (ops.map Op.raw)) := by
  have hBatch : Over.decodeOps st b = .ok (ops.map Op.raw) :=
    hst.decodeFrames hFits hOps le_rfl
  rw [batched, hp.reads a ha b]
  dsimp only
  rw [hBatch]

theorem batched_taken (hst : SpellsStamps strict st) (hp : SpellsIf strict p put good)
    {tag : UInt8} (hPut : ∀ a ops, putMessage (make a ops) = tag :: put a)
    (hFields : ∀ a ops, good a → (make a ops).Fields) (hBatch : ∀ a ops, (make a ops).batch = ops)
    (hItems : ∀ a ops, (make a ops).items = ops.length) {w : Bytes} {m : Message}
    (h : batched st p make w = .ok m) : Taken strict (tag :: w) m := by
  unfold batched at h
  split at h
  next => cases h
  next a rest hHead =>
    split at h
    next => cases h
    next ops hOps =>
      cases h
      obtain ⟨head, rfl, ha, -, hBytes⟩ := hp w a rest hHead
      obtain ⟨hAll, hTail⟩ := hst.decodeFrames le_rfl hOps
      refine ⟨hFields a ops ha, by rwa [hBatch], ?_, fun hStrict => ?_⟩
      · have hLength := length_decodeFrames hOps
        rw [hItems, List.length_cons, List.length_append]
        omega
      · rw [encodeMessage, hBatch, hPut, hTail hStrict, hBytes hStrict]
        rfl

end Batches

omit [IdHash] in
theorem codes_opsHead : Codes strict opsHead putU32 (· < 2 ^ 32) := codes_u32

omit [IdHash] in
theorem codes_crossZoneHead : Codes strict crossZoneHead (fun x => putU32 x.1 ++ putBytes x.2)
    fun x => x.1 < 2 ^ 32 ∧ bytesFit x.2 = true :=
  codes_u32.both codes_bytes

/-- What the encoder writes of a replicated batch before the ops. -/
def putReplicateHead :
    Bytes × Bytes × Nat × Nat × Option Bytes × Option (Bytes × Nat) × Option Nat → Bytes :=
  fun x => putBytes x.1 ++ (putBytes x.2.1 ++ (putU64 x.2.2.1 ++ (putU64 x.2.2.2.1 ++
    (putOptBytes x.2.2.2.2.1 ++ (putOptGoverning x.2.2.2.2.2.1 ++ putOptU32 x.2.2.2.2.2.2)))))

omit [IdHash] in
theorem codes_replicateHead : Codes strict replicateHead putReplicateHead fun x =>
    bytesFit x.1 = true ∧ bytesFit x.2.1 = true ∧ x.2.2.1 < 2 ^ 64 ∧ x.2.2.2.1 < 2 ^ 64 ∧
      x.2.2.2.2.1.all bytesFit = true ∧ governingFits x.2.2.2.2.2.1 ∧ optU32Fits x.2.2.2.2.2.2 :=
  codes_bytes.both (codes_bytes.both (codes_u64.both (codes_u64.both (codes_optBytes.both
    (codes_optGoverning.both codes_optU32)))))

/-- What is read of a frame, by its tag. -/
theorem taken_of_decode (hst : SpellsStamps strict st) (hFlag : Codes strict fl putFlag fun _ => True)
    {b : Bytes} {m : Message} (h : decodeOver st fl b = .ok m) : Taken strict b m := by
  obtain _ | ⟨tag, w⟩ := b
  · cases h
  by_cases hOps : tag = 2
  · subst hOps
    refine batched_taken hst codes_opsHead.spells ?_ ?_ ?_ ?_ h
    · exact fun _ _ => rfl
    · exact fun _ _ ha => ha
    · exact fun _ _ => rfl
    · exact fun _ _ => rfl
  by_cases hReplicate : tag = 24
  · subst hReplicate
    refine batched_taken hst codes_replicateHead.spells ?_ ?_ ?_ ?_ h
    · exact fun _ _ => rfl
    · exact fun _ _ ha => ha
    · exact fun _ _ => rfl
    · exact fun _ _ => rfl
  by_cases hCross : tag = 46
  · subst hCross
    refine batched_taken hst codes_crossZoneHead.spells ?_ ?_ ?_ ?_ h
    · exact fun _ _ => rfl
    · exact fun _ _ ha => ha
    · exact fun _ _ => rfl
    · exact fun _ _ => rfl
  rw [decodeOver_plain ⟨hOps, hReplicate, hCross⟩] at h
  split at h
  next => cases h
  next m' hBody =>
    cases h
    obtain ⟨w', rfl, hFields, hPlain, hLength, hBytes⟩ := spells_body hFlag tag w m [] hBody
    have hBatch : m.batch = [] := by
      cases m with
      | ops | replicate | crossZoneOps => cases hPlain
      | _ => rfl
    rw [List.append_nil]
    refine ⟨hFields, ?_, ?_, fun hStrict => ?_⟩
    · rw [hBatch]
      exact fun _ ho => nomatch ho
    · rw [hLength]
      exact items_le hPlain
    · rw [encodeMessage, hBatch, ← hBytes hStrict]
      exact congrArg some (List.append_nil _)
  next => cases h

theorem decodeOver_encodeMessage (hst : ReadsStamps st) (hFlag : Codes False fl putFlag fun _ => True)
    {m : Message} (hFits : m.Fits) {b : Bytes} (hEncode : encodeMessage m = some b) :
    decodeOver st fl b = .ok m.raw := by
  obtain ⟨batch, hBatch, rfl⟩ := Option.map_eq_some_iff.mp hEncode
  by_cases hPlain : m.carriesOps = false
  · have hEmpty : batch = [] := by
      cases m with
      | ops | replicate | crossZoneOps => cases hPlain
      | _ => exact (Option.some.inj hBatch).symm
    have hRaw : m.raw.carriesOps = false ∧ putMessage m.raw = putMessage m := by
      cases m with
      | ops | replicate | crossZoneOps => cases hPlain
      | _ => exact ⟨rfl, rfl⟩
    obtain ⟨tag, w, hPut, hTag, hRun⟩ := run_body hFlag m.raw hFits.fields hRaw.1
    rw [hEmpty, List.append_nil, ← hRaw.2, hPut, decodeOver_plain hTag, hRun]
  · cases m with
    | ops channel held => exact batched_reads hst codes_opsHead hFits.fields hFits.ops hBatch
    | replicate room branch held baseSeq epoch creator governing maxOpVersion =>
      exact batched_reads (a := (room, branch, baseSeq, epoch, creator, governing, maxOpVersion))
        hst codes_replicateHead hFits.fields hFits.ops hBatch
    | crossZoneOps channel held token =>
      exact batched_reads (a := (channel, token)) hst codes_crossZoneHead hFits.fields hFits.ops
        hBatch
    | _ => exact absurd rfl hPlain

theorem Taken.raw_eq {b : Bytes} {m : Message} (h : Taken strict b m) : m.raw = m := by
  have hHeld : m.batch.map Op.raw = m.batch :=
    (List.map_congr_left (g := id) fun o ho => (h.ops o ho).2).trans (List.map_id _)
  cases m with
  | ops channel held => exact congrArg (Message.ops channel) hHeld
  | replicate room branch held baseSeq epoch creator governing maxOpVersion =>
    exact congrArg (Message.replicate room branch · baseSeq epoch creator governing maxOpVersion)
      hHeld
  | crossZoneOps channel held token => exact congrArg (Message.crossZoneOps channel · token) hHeld
  | crossZoneToken room element dstZone =>
    have hElement : element.raw = element := h.fields.2.1
    rw [Message.raw, hElement]
  | _ => rfl

theorem Taken.fits {b : Bytes} {m : Message} (h : Taken strict b m) : m.Fits :=
  ⟨by rw [h.raw_eq]; exact h.fields, fun o ho => (h.ops o ho).1⟩

/-- The decoder that refuses a flag byte other than the encoder's two and a stamp not
spelled as the encoder spells it. -/
def decodeStrict (b : Bytes) : Except ProtocolError Message :=
  decodeOver strictStamp (strictFlag "flag") b

/-- Every message whose fields fit is read back from its frame; what is read fits, and its
lists hold no more items than the frame has bytes. The frame is the one written for the
message just when each flag in it is one of the encoder's two bytes and each stamp is
spelled as the encoder spells it. -/
theorem message_codec :
    (∀ (m : Message) b, m.Fits → encodeMessage m = some b → decodeMessage b = .ok m.raw) ∧
    ∀ b m, decodeMessage b = .ok m → m.Fits ∧ m.raw = m ∧ m.items ≤ b.length ∧
      (encodeMessage m = some b ↔ decodeStrict b = .ok m) := by
  refine ⟨fun m b hFits hEncode => ?_, fun b m hDecode => ?_⟩
  · exact decodeOver_encodeMessage readsStamps_stamp codes_flag hFits hEncode
  · have hTaken := taken_of_decode spellsStamps_stamp codes_flag hDecode
    refine ⟨hTaken.fits, hTaken.raw_eq, hTaken.items, fun hEncode => ?_, fun hStrict => ?_⟩
    · have hBack := decodeOver_encodeMessage readsStamps_strictStamp (codes_strictFlag "flag")
        hTaken.fits hEncode
      rwa [hTaken.raw_eq] at hBack
    · exact (taken_of_decode spellsStamps_strictStamp (codes_strictFlag "flag") hStrict).bytes
        trivial

end Frames

section Examples

local instance wireIdHash : IdHash := ⟨fun _ _ _ => 0⟩

/-- A probe's answer, written and read. -/
theorem message_codec_pingAck : encodeMessage (.pingAck true) = some [48, 1] ∧
    decodeMessage [48, 1] = .ok (.pingAck true) ∧ decodeStrict [48, 1] = .ok (.pingAck true) := by
  have hFits : (Message.pingAck true).Fits := ⟨trivial, fun _ ho => nomatch ho⟩
  have hDecode := message_codec.1 (.pingAck true) [48, 1] hFits rfl
  exact ⟨rfl, hDecode, (message_codec.2 _ _ hDecode).2.2.2.mp rfl⟩

/-- Two frames read as one message. -/
theorem pingAck_of_two : decodeMessage [48, 2] = .ok (.pingAck true) ∧
    decodeMessage [48, 1] = .ok (.pingAck true) ∧
    encodeMessage (.pingAck true) ≠ some [48, 2] := by
  decide +kernel

end Examples

end CrdtSync.Wire
