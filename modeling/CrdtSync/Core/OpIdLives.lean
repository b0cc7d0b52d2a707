import CrdtSync.Core.GroupTrim
import CrdtSync.Core.OpIds
import CrdtSync.Core.Restored

/-!
# The ids of a document over its whole life

A document lives on local edits, deliveries, published runs, adoptions and snapshots read
over it, and is projected for those it is served to. Whatever the order, its books stay in
order. A projection cuts the dedup set back, so it alone makes an op fold again.
-/

namespace CrdtSync

open Lib
open Std (ExtTreeMap)

namespace Document

variable {σ : Type} {d d' : Document σ} {P : Op → Prop}

/-! ### Published runs and snapshots -/

section Snapshots

variable [Folds σ]

theorem Booked.notePublished (h : d.Booked P) (seqs : List Nat) (reach : Nat) :
    Follows d (d.notePublished seqs reach) P := by
  unfold Document.notePublished
  dsimp only
  refine Follows.trans ?_ fun hBooked => hBooked.follows_recordStamp _ 1
  induction seqs generalizing d with
  | nil => exact h.still rfl rfl
  | cons seq seqs ih =>
    rw [List.foldl_cons]
    split
    next hNew =>
      have hNoted : ({ d with reserved := insert ⟨d.client, seq⟩ d.reserved } : Document σ).Booked P := by
        refine ⟨KeptBut.congr h.kept rfl rfl rfl, ?_, h.waits⟩
        intro id hId
        change id ∉ d.known
        obtain rfl | hOld := Finset.mem_insert.mp hId
        · rw [h.kept.tracked.mem_known]
          tauto
        · exact h.apart id hOld
      refine Follows.trans ?_ ih
      exact hNoted.still rfl rfl
    next => exact ih h

theorem Booked.adoptAs (h : d.Booked P) (client : ClientId) (seq : Nat) :
    Follows d (d.adoptAs client seq) P :=
  h.quiet rfl rfl rfl rfl (Finset.empty_subset _)

theorem Booked.foldl_recordStamp (h : d.Booked P) (ops : List Op) :
    Follows d (ops.foldl (fun d op => d.recordStamp op.stamp (span op.kind)) d) P := by
  induction ops generalizing d with
  | nil => exact h.still rfl rfl
  | cons op ops ih => exact (h.follows_recordStamp op.stamp (span op.kind)).trans ih

omit [Folds σ] in
/-- The decoder refuses a snapshot whose sets meet. -/
theorem booked_of_readable {s : DocState σ} (hReadable : s.readable = true) :
    (decoded { s with buffered := (s.buffer.map Op.id).toFinset }).Booked (· ∈ s.buffer) := by
  simp only [DocState.readable, Bool.and_eq_true, decide_eq_true_eq, List.all_eq_true] at hReadable
  obtain ⟨⟨⟨⟨-, -⟩, hReserved⟩, hNodup⟩, hHeld⟩ := hReadable
  refine ⟨⟨?_, ?_, ?_⟩, ?_, fun op hOp => ⟨op, hOp, .inl rfl⟩⟩
  · rw [List.map_nil, List.append_nil]
    exact hNodup
  · intro id
    change id ∈ (s.buffer.map Op.id).toFinset ↔ _
    rw [List.mem_toFinset]
    simp [decoded]
  · intro id hId
    obtain ⟨op, hOp, rfl⟩ := List.mem_map.mp (List.mem_toFinset.mp hId)
    exact (hHeld op hOp).1.1
  · intro id hId hKnown
    have hWaits : id ∉ s.buffer.map Op.id := by
      intro hIn
      obtain ⟨op, hOp, rfl⟩ := List.mem_map.mp hIn
      exact (hHeld op hOp).1.2 hId
    obtain hSeen | hIn | hIn := mem_known.mp hKnown
    · exact (hReserved id hId).2 hSeen
    · exact hWaits (List.mem_toFinset.mp hIn)
    · exact hWaits hIn

theorem follows_readState {s : DocState σ} (hRead : readState s = some d) :
    Follows (decoded { s with buffered := (s.buffer.map Op.id).toFinset }) d (· ∈ s.buffer) := by
  unfold readState at hRead
  split at hRead
  next hReadable =>
    obtain rfl := Option.some.inj hRead
    have hNoted := (booked_of_readable hReadable).foldl_recordStamp s.buffer
    exact (hNoted.trans Booked.untagResolved).trans Booked.drainBuffer
  next => cases hRead

end Snapshots

/-! ### Projections -/

section Projections

/-- The ids `recipient` published that this replica holds. -/
def publishedBy (d : Document σ) (recipient : Option ClientId) : Finset OpId :=
  match recipient with
  | none => ∅
  | some client => (d.seen ∪ d.buffered).filter fun id => id.client = client

/-- Cut the dedup set back to `published`, less what the buffer still holds. -/
def scrubFrontierTo (d : Document σ) (published : Finset OpId) : Document σ :=
  { d with seen := published.filter fun id => id ∉ d.buffered, reserved := ∅ }

variable [IdBytes]

/-- Cut the record back to the recipient's own entry and what the content still shows. -/
def scrubHighWaterTo (d : Document Content) (recipient : Option ClientId) : Document Content :=
  let cut := { d with
    stampHighWater := d.stampHighWater.filter fun client _ => some client = recipient }
  if cut.stampHighWater.size = d.stampHighWater.size then cut
  else
    match cut.reloaded with
    | some own => { cut with stampHighWater := own.stampHighWater }
    | none => cut

/-- Narrow the replica to the authorized zones of a schema. What is left of the content is
`narrow`'s. -/
def projectZones (d : Document Content) (zones : List Nat) (authorized : Finset Nat)
    (narrow : Content → Content) (recipient : Option ClientId) : Document Content :=
  if zones.isEmpty then d
  else
    let buffer := retainAtomic (fun op => op.zone.all (· ∈ authorized)) d.buffer
    let scrubbed : Document Content := { d with
      content := narrow d.content
      zoneClocks := d.zoneClocks.filter fun zone _ => zone ∈ authorized
      buffer
      buffered := (buffer.map Op.id).toFinset
      resolvedTx := ∅ }
    (scrubbed.scrubFrontierTo (d.publishedBy recipient)).scrubHighWaterTo recipient

/-- Narrow the replica to the paths a reader may read: once anything is cut, the buffer and
the frontier go too. -/
def projectReadPaths (d : Document Content) (narrow : Content → Content) (cut : Content → Bool)
    (recipient : Option ClientId) : Document Content :=
  let narrowed : Document Content := { d with content := narrow d.content }
  if cut d.content then
    let scrubbed : Document Content := { narrowed with buffer := [], buffered := ∅, resolvedTx := ∅ }
    (scrubbed.scrubFrontierTo (d.publishedBy recipient)).scrubHighWaterTo recipient
  else narrowed

theorem scrubHighWaterTo_sets (d : Document Content) (recipient : Option ClientId) :
    (d.scrubHighWaterTo recipient).seen = d.seen ∧
      (d.scrubHighWaterTo recipient).buffer = d.buffer ∧
        (d.scrubHighWaterTo recipient).buffered = d.buffered ∧
          (d.scrubHighWaterTo recipient).reserved = d.reserved := by
  unfold scrubHighWaterTo
  dsimp only
  split
  · exact ⟨rfl, rfl, rfl, rfl⟩
  · split <;> exact ⟨rfl, rfl, rfl, rfl⟩

/-- A scrubbed replica keeps books whatever it published: the dedup set leaves out what the
buffer holds, and nothing is reserved. -/
theorem booked_scrub {d : Document Content} (hNodup : (d.buffer.map Op.id).Nodup)
    (hBuffered : d.buffered = (d.buffer.map Op.id).toFinset) (published : Finset OpId)
    (recipient : Option ClientId) :
    ((d.scrubFrontierTo published).scrubHighWaterTo recipient).Booked fun _ => True := by
  obtain ⟨hSeen, hBuffer, hHeld, hReserved⟩ :=
    scrubHighWaterTo_sets (d.scrubFrontierTo published) recipient
  have hFrontier : (d.scrubFrontierTo published).Booked fun _ => True := by
    refine ⟨⟨?_, ?_, ?_⟩, ?_, fun op _ => ⟨op, trivial, .inl rfl⟩⟩
    · rw [List.map_nil, List.append_nil]
      exact hNodup
    · intro id
      change id ∈ d.buffered ↔ id ∈ d.buffer.map Op.id ∨ _
      rw [hBuffered, List.mem_toFinset]
      simp
    · intro id hId hIn
      exact (Finset.mem_filter.mp hIn).2 hId
    · exact fun id hId => absurd hId (Finset.notMem_empty id)
  exact hFrontier.congr (by rw [hBuffer]) (thins_of_buffer hBuffer) hHeld hSeen hReserved.subset

omit [IdBytes] in
theorem map_id_destrandSplit (ops : List Op) (split : Finset TxKey) :
    (destrandSplit ops split).map Op.id = ops.map Op.id := by
  unfold destrandSplit
  split
  · rfl
  · rw [List.map_map]
    refine List.map_congr_left fun op _ => ?_
    simp only [Function.comp_apply, destrand]
    split <;> rfl

theorem Booked.projectZones {d : Document Content} (h : d.Booked fun _ => True) (zones : List Nat)
    (authorized : Finset Nat) (narrow : Content → Content) (recipient : Option ClientId) :
    (d.projectZones zones authorized narrow recipient).Booked fun _ => True := by
  unfold Document.projectZones
  dsimp only
  split
  · exact h
  · refine booked_scrub ?_ rfl _ _
    have hNodup := KeptBut.ids h.kept
    rw [List.map_nil, List.append_nil] at hNodup
    change ((retainAtomic _ d.buffer).map Op.id).Nodup
    unfold retainAtomic
    rw [map_id_destrandSplit]
    exact hNodup.sublist (List.filter_sublist.map Op.id)

theorem Booked.projectReadPaths {d : Document Content} (h : d.Booked fun _ => True)
    (narrow : Content → Content) (cut : Content → Bool) (recipient : Option ClientId) :
    (d.projectReadPaths narrow cut recipient).Booked fun _ => True := by
  unfold Document.projectReadPaths
  dsimp only
  split
  · refine booked_scrub ?_ rfl _ _
    exact List.nodup_nil
  · exact h.congr rfl (thins_of_buffer rfl) rfl rfl (Finset.Subset.refl _)

end Projections

/-! ### Every state of every life -/

/-- What befalls a document: an episode of its life, or a projection for a recipient. -/
inductive Chapter
  | episode (e : Episode Content)
  | projectZones (zones : List Nat) (authorized : Finset Nat) (narrow : Content → Content)
      (recipient : Option ClientId)
  | projectReadPaths (narrow : Content → Content) (cut : Content → Bool)
      (recipient : Option ClientId)

section Lives

variable [IdBytes] [TxDigest]

def enter (d : Document Content) : Chapter → Document Content
  | .episode e => d.pass e
  | .projectZones zones authorized narrow recipient =>
    d.projectZones zones authorized narrow recipient
  | .projectReadPaths narrow cut recipient => d.projectReadPaths narrow cut recipient

def story (d : Document Content) (chapters : List Chapter) : Document Content :=
  chapters.foldl enter d

/-- The three sets are apart, the held ids are those of the buffer, each once, and the mint's
walk ends on a sequence in none of the sets, wherever in the space it begins. -/
structure Bookkeeping {σ : Type} (d : Document σ) : Prop where
  seen_buffered : Disjoint d.seen d.buffered
  seen_reserved : Disjoint d.seen d.reserved
  buffered_reserved : Disjoint d.buffered d.reserved
  held : d.buffered = (d.buffer.map Op.id).toFinset
  once : (d.buffer.map Op.id).Nodup
  free : ∀ start < 2 ^ 64, d.freeSeq start < 2 ^ 64 ∧
    (⟨d.client, d.freeSeq start⟩ : OpId) ∉ d.seen ∪ d.buffered ∪ d.reserved

omit [IdBytes] [TxDigest] in
theorem Booked.bookkeeping (h : d.Booked P) (hRoom : d.Roomy) : d.Bookkeeping where
  seen_buffered := Finset.disjoint_left.mpr fun id hSeen hHeld => KeptBut.apart h.kept id hHeld hSeen
  seen_reserved := Finset.disjoint_left.mpr fun id hSeen hReserved =>
    h.apart id hReserved (mem_known.mpr (.inl hSeen))
  buffered_reserved := Finset.disjoint_left.mpr fun id hHeld hReserved =>
    h.apart id hReserved (mem_known.mpr (.inr (.inl hHeld)))
  held := by
    ext id
    rw [List.mem_toFinset]
    exact h.kept.mem_buffered
  once := by
    have hNodup := KeptBut.ids h.kept
    rw [List.map_nil, List.append_nil] at hNodup
    exact hNodup
  free start hStart := by
    obtain ⟨free, hFree, hNot⟩ := hRoom.exists_free
    exact ⟨freeSeq_lt hStart, freeSeq_free start hFree hNot⟩

/-- The ops that can be folded over these episodes: those held at the start, those delivered
and those the edits mint. -/
def Comes (d : Document σ) (episodes : List (Episode σ)) (op : Op) : Prop :=
  op ∈ d.buffer ∨ ∃ a, .act a ∈ episodes ∧ Brings σ a op

omit [IdBytes] in
/-- An episode that does not decode over the document. -/
theorem Booked.pass [Folds σ] (h : d.Booked P) {e : Episode σ} (hRoom : (d.pass e).Roomy)
    (hOwn : ∀ s, e ≠ .restore s) (hBrings : ∀ a op, e = .act a → Brings σ a op → P op) :
    Follows d (d.pass e) P := by
  cases e with
  | act a => exact h.act hRoom fun op hOp => hBrings a op rfl hOp
  | notePublished seqs reach => exact h.notePublished seqs reach
  | restore s => exact absurd rfl (hOwn s)
  | adoptAs client seq => exact h.adoptAs client seq

omit [IdBytes] in
theorem Booked.live [Folds σ] (h : d.Booked P) {episodes : List (Episode σ)}
    (hRoom : ∀ lived, lived <+: episodes → (d.live lived).Roomy)
    (hOwn : ∀ s, .restore s ∉ episodes)
    (hBrings : ∀ a op, .act a ∈ episodes → Brings σ a op → P op) :
    Follows d (d.live episodes) P := by
  induction episodes generalizing d with
  | nil => exact h.still rfl rfl
  | cons e episodes ih =>
    have hNow : (d.pass e).Roomy := hRoom [e] ⟨episodes, rfl⟩
    have hFirst : Follows d (d.pass e) P := by
      refine h.pass hNow (fun s hSame => hOwn s (hSame ▸ List.mem_cons_self)) ?_
      rintro a op rfl hOp
      exact hBrings a op List.mem_cons_self hOp
    refine hFirst.trans fun hBooked => ih hBooked (fun lived hLived => hRoom (e :: lived) ?_)
      (fun s hs => hOwn s (List.mem_cons_of_mem _ hs))
      fun a op hAct hOp => hBrings a op (List.mem_cons_of_mem _ hAct) hOp
    exact List.cons_prefix_cons.mpr ⟨rfl, hLived⟩

theorem Booked.enter {d : Document Content} (h : d.Booked fun _ => True) {c : Chapter}
    (hRoom : (d.enter c).Roomy) : (d.enter c).Booked fun _ => True := by
  cases c with
  | episode e =>
    cases e with
    | restore s =>
      change ((readState s).getD d).Booked _
      cases hRead : readState s with
      | none => exact h
      | some d' => exact (follows_readState hRead).booked.mono fun _ _ => trivial
    | act a => exact (h.act hRoom fun _ _ => trivial).booked
    | notePublished seqs reach => exact (h.notePublished seqs reach).booked
    | adoptAs client seq => exact (h.adoptAs client seq).booked
  | projectZones zones authorized narrow recipient => exact h.projectZones ..
  | projectReadPaths narrow cut recipient => exact h.projectReadPaths ..

theorem Booked.story {d : Document Content} (h : d.Booked fun _ => True) {chapters : List Chapter}
    (hRoom : ∀ read, read <+: chapters → (d.story read).Roomy) :
    (d.story chapters).Booked fun _ => True := by
  induction chapters generalizing d with
  | nil => exact h
  | cons c chapters ih =>
    have hNow : (d.enter c).Roomy := hRoom [c] ⟨chapters, rfl⟩
    refine ih (h.enter hNow) fun read hRead => hRoom (c :: read) ?_
    exact List.cons_prefix_cons.mpr ⟨rfl, hRead⟩

omit [IdBytes] [TxDigest] in
theorem booked_new (client : ClientId) (content : σ) : (new client content).Booked P where
  kept := ⟨List.nodup_nil, fun _ => by simp [new], fun _ hId => absurd hId (Finset.notMem_empty _)⟩
  apart := fun id hId => absurd hId (Finset.notMem_empty id)
  waits := fun _ hOp => absurd hOp List.not_mem_nil

/-- In every state a document reaches the three sets are apart, the buffer's ids are the held
ones, and the mint finds a free sequence. From there on, for as long as the document is neither
decoded over nor projected, what is folded is what was held, delivered or minted, none of it
twice and none of it before; and a document that is decoded folds of what its snapshot held
only what the snapshot had not applied. -/
theorem op_id_bookkeeping (client : ClientId) (chapters : List Chapter)
    (hRoom : ∀ read, read <+: chapters → ((new client Content.new).story read).Roomy) :
    ((new client Content.new).story chapters).Bookkeeping ∧
      (∀ episodes, (∀ lived, lived <+: episodes →
          (((new client Content.new).story chapters).live lived).Roomy) →
        (∀ s, .restore s ∉ episodes) →
          ∃ ops, FoldsInto ((new client Content.new).story chapters)
            (((new client Content.new).story chapters).live episodes) ops ∧
              ∀ op ∈ ops, Copies (((new client Content.new).story chapters).Comes episodes) op) ∧
        ∀ (s : DocState Content) d, readState s = some d →
          ∃ ops, FoldsInto (decoded { s with buffered := (s.buffer.map Op.id).toFinset }) d ops ∧
            ∀ op ∈ ops, Copies (· ∈ s.buffer) op := by
  have hBooked := (booked_new client Content.new).story hRoom
  refine ⟨hBooked.bookkeeping (hRoom chapters List.prefix_rfl), ?_, ?_⟩
  · intro episodes hRoomy hOwn
    have hHere : ((new client Content.new).story chapters).Booked
        (((new client Content.new).story chapters).Comes episodes) :=
      ⟨hBooked.kept, hBooked.apart, fun op hOp => ⟨op, .inl hOp, .inl rfl⟩⟩
    exact (hHere.live hRoomy hOwn fun a op hAct hOp => .inr ⟨a, hAct, hOp⟩).folds
  · exact fun s d hRead => (follows_readState hRead).folds

end Lives

section Examples

local instance livesIdBytes : IdBytes := IdBytes.spelled
local instance livesTxDigest : TxDigest := ⟨List.sum⟩

/-- Three published sequences, the last of the space among them, and a member that waits for
its group. -/
def publishedAndWaiting : List Chapter :=
  [.episode (.notePublished [0, 2, 2 ^ 64 - 1] 0), .episode (.act (.apply (pairMember 1)))]

theorem op_id_bookkeeping_publishedAndWaiting :
    ((new ⟨1⟩ Content.new).story publishedAndWaiting).Bookkeeping ∧
      ((new ⟨1⟩ Content.new).story publishedAndWaiting).freeSeq (2 ^ 64 - 1) = 3 := by
  have hAll : ∀ read ∈ publishedAndWaiting.inits,
      ((new ⟨1⟩ Content.new).story read).ids.card < 2 ^ 64 := by decide +kernel
  refine ⟨(op_id_bookkeeping ⟨1⟩ publishedAndWaiting ?_).1, by decide +kernel⟩
  exact fun read hRead => hAll read ((List.mem_inits _ _).mpr hRead)

/-- A counter incremented by another author. -/
def countedUp : Op := ⟨⟨⟨2⟩, 0⟩, ⟨1, ⟨2⟩, 0⟩, ROOT_ID, .counterInc [99] 5, none, none⟩

/-- The increment is delivered, the replica is projected for a subscriber of all its zones, and
the increment is delivered again. -/
def projectedAndResent : List Chapter :=
  [.episode (.act (.apply countedUp)), .projectZones [1] {1} id none,
    .episode (.act (.apply countedUp))]

/-- The one op there is has been folded twice. -/
theorem projected_replica_folds_again :
    ¬∃ ops, FoldsInto (new ⟨9⟩ Content.new) ((new ⟨9⟩ Content.new).story projectedAndResent) ops ∧
      ∀ op ∈ ops, Copies (· = countedUp) op := by
  rintro ⟨ops, hOps, hFrom⟩
  have hSame : ∀ op ∈ ops, op = countedUp := by
    intro op hOp
    obtain ⟨_, rfl, rfl | rfl⟩ := hFrom op hOp
    · rfl
    · rfl
  have hOne : ops = [countedUp] := by
    have hSeen : countedUp.id ∈ ((new ⟨9⟩ Content.new).story projectedAndResent).seen := by
      decide +kernel
    cases ops with
    | nil => exact absurd ((hOps.seen _).mp hSeen) (by decide)
    | cons op rest =>
      obtain rfl := hSame op List.mem_cons_self
      have hRest : rest = [] := by
        refine List.eq_nil_iff_forall_not_mem.mpr fun other hOther => ?_
        have hOnce := List.nodup_cons.mp hOps.once
        rw [← hSame other (List.mem_cons_of_mem _ hOther)] at hOnce
        exact hOnce.1 (List.mem_map_of_mem hOther)
      rw [hRest]
  have hContent := congrArg (fun c : Content => c.counters.toList.map fun entry =>
    entry.2.entries.toList.map fun tally => tally.2.inc) hOps.content
  rw [hOne] at hContent
  revert hContent
  decide +kernel

end Examples

end Document

end CrdtSync
