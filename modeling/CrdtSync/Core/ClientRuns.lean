import CrdtSync.Core.Client
import CrdtSync.Core.Minting
import CrdtSync.Core.OpIdLives
import CrdtSync.Core.ReadBack

/-!
# Runs of a channel

A channel goes through local edits, commits, undo and server frames in any order.
The ops it authors stay apart as long as every snapshot it adopts declares an
id-space record that reaches what the channel has authored; an adopted snapshot
reflects the outbox exactly when the server had taken it in.
-/

namespace CrdtSync

namespace Document

variable {σ : Type} {d : Document σ} {zones : Set (Option Nat)} {ops : List Op}

/-- Every op gathered for the next commit is one of `ops`, up to its tag. -/
def Gathers (d : Document σ) (ops : List Op) : Prop :=
  ∀ op ∈ d.atomic.getD [], op.untagged ∈ ops

theorem Clears.openTransact (h : d.Clears zones ops) : d.openTransact.Clears zones ops :=
  ⟨h.minted, h.seq, h.floor, h.apart⟩

theorem Clears.beginAtomic (h : d.Clears zones ops) : d.beginAtomic.Clears zones ops := by
  unfold Document.beginAtomic
  split
  · exact h
  · exact ⟨h.minted, h.seq, h.floor, h.apart⟩

theorem Clears.openReplay (h : d.Clears zones ops) (isAtomic : Bool) :
    (d.openReplay isAtomic).Clears zones ops := by
  have hOpen : { d with mintRefused := false, pending := [] }.Clears zones ops :=
    ⟨h.minted, h.seq, h.floor, h.apart⟩
  cases isAtomic with
  | false => exact hOpen
  | true => exact hOpen.beginAtomic

theorem beginAtomic_pending (d : Document σ) : d.beginAtomic.pending = d.pending := by
  unfold Document.beginAtomic
  split <;> rfl

theorem Gathers.beginAtomic (h : d.Gathers ops) : d.beginAtomic.Gathers ops := by
  unfold Document.beginAtomic
  split
  · exact h
  · intro op hOp
    cases hOp

theorem openReplay_pending (d : Document σ) (isAtomic : Bool) :
    (d.openReplay isAtomic).pending = [] := by
  cases isAtomic with
  | false => rfl
  | true => exact beginAtomic_pending _

theorem Gathers.openReplay (h : d.Gathers ops) (isAtomic : Bool) :
    (d.openReplay isAtomic).Gathers ops := by
  cases isAtomic with
  | false => exact h
  | true => exact Gathers.beginAtomic (d := { d with mintRefused := false, pending := [] }) h

/-- What the channel does with the ops of one call: those it hands over and those
it goes on gathering are all among the authored ones. -/
structure Accounts (zones : Set (Option Nat)) (ops : List Op) (result : List Op × Document σ) :
    Prop where
  clears : result.2.Clears zones ops
  handed : ∀ op ∈ result.1, op.untagged ∈ ops
  gathers : result.2.Gathers ops

variable [Folds σ]

theorem authored_untagged (edits : List Edit) (d : Document σ) :
    ∀ op ∈ d.authored edits, op.untagged = op := by
  induction edits generalizing d with
  | nil => simp [authored]
  | cons e edits ih =>
    intro op hOp
    rcases List.mem_append.mp hOp with hOp | hOp
    · unfold emitted at hOp
      by_cases hRefused : d.mintRefused = true
      · simp [hRefused] at hOp
      · simp only [hRefused, Bool.false_eq_true, if_false, Option.mem_toList,
          Option.map_eq_some_iff] at hOp
        obtain ⟨stamp, -, rfl⟩ := hOp
        rfl
    · exact ih _ op hOp

theorem settles_tagAtomic [TxDigest] (d : Document σ) (ops : List Op) :
    Settles d (d.tagAtomic ops).2 := by
  unfold tagAtomic
  dsimp only
  split
  · exact Settles.refl d
  · exact ((Settles.of_sets ..).trans (settles_untagResolved ..)).trans (settles_drainBuffer ..)

theorem untagged_tagAtomic [TxDigest] (d : Document σ) (ops : List Op) :
    ∀ op ∈ (d.tagAtomic ops).1, ∃ op' ∈ ops, op.untagged = op'.untagged := by
  unfold tagAtomic
  dsimp only
  intro op hOp
  split at hOp
  · exact ⟨op, hOp, rfl⟩
  · obtain ⟨op', hIn, rfl⟩ := List.mem_map.mp hOp
    exact ⟨op', hIn, rfl⟩

theorem Clears.accounts_commitAtomic [TxDigest] (h : d.Clears zones ops) (hGathers : d.Gathers ops) :
    Accounts zones ops d.commitAtomic := by
  unfold Document.commitAtomic
  cases hAtomic : d.atomic with
  | none => exact ⟨h, by simp, hGathers⟩
  | some acc =>
    dsimp only
    have hClosed : { d with atomic := none }.Clears zones ops := ⟨h.minted, h.seq, h.floor, h.apart⟩
    have hSettles := settles_tagAtomic { d with atomic := none } acc
    refine ⟨hSettles.clears hClosed, fun op hOp => ?_, ?_⟩
    · obtain ⟨op', hIn, hEq⟩ := untagged_tagAtomic _ _ op hOp
      rw [hEq]
      apply hGathers
      rw [hAtomic]
      exact hIn
    · unfold Gathers
      rw [hSettles.atomic]
      simp

theorem Clears.accounts_transact {edits : List Edit} (h : d.Clears zones ops)
    (hGathers : d.Gathers ops) (hRange : d.openTransact.EditsInRange zones edits) :
    Accounts zones (ops ++ d.openTransact.authored edits) (d.transact edits) := by
  have hSettles := settles_drainBuffer (d.openTransact.emitAll edits)
  have hClears := hSettles.clears (h.openTransact.emitAll hRange)
  have hPending := hSettles.pending.trans (emitAll_pending d.openTransact edits)
  have hAtomic := hSettles.atomic.trans (emitAll_atomic d.openTransact edits)
  have hAuthored : ∀ op ∈ d.openTransact.authored edits,
      op.untagged ∈ ops ++ d.openTransact.authored edits := by
    intro op hOp
    rw [authored_untagged edits d.openTransact op hOp]
    exact List.mem_append_right _ hOp
  unfold transact
  dsimp only
  rw [hAtomic, hPending]
  cases hGroup : d.openTransact.atomic with
  | none =>
    refine ⟨⟨hClears.minted, hClears.seq, hClears.floor, hClears.apart⟩, ?_, ?_⟩
    · exact hAuthored
    · unfold Gathers
      simp
  | some acc =>
    refine ⟨⟨hClears.minted, hClears.seq, hClears.floor, hClears.apart⟩, by simp, ?_⟩
    intro op hOp
    rcases List.mem_append.mp hOp with hOp | hOp
    · apply List.mem_append_left
      apply hGathers
      change d.atomic = some acc at hGroup
      rw [hGroup]
      exact hOp
    · exact hAuthored op hOp

theorem Clears.accounts_replay [TxDigest] {isAtomic : Bool} {edits : List Edit}
    (h : d.Clears zones ops) (hGathers : d.Gathers ops)
    (hRange : (d.openReplay isAtomic).EditsInRange zones edits) :
    Accounts zones (ops ++ (d.openReplay isAtomic).authored edits) (d.replay isAtomic edits) := by
  have hSettles := settles_drainBuffer ((d.openReplay isAtomic).emitAll edits)
  have hClears := hSettles.clears ((h.openReplay isAtomic).emitAll hRange)
  have hPending := hSettles.pending.trans (emitAll_pending (d.openReplay isAtomic) edits)
  have hAtomic := hSettles.atomic.trans (emitAll_atomic (d.openReplay isAtomic) edits)
  have hOpenPending := openReplay_pending d isAtomic
  have hOpenGathers := hGathers.openReplay isAtomic
  have hAuthored : ∀ op ∈ (d.openReplay isAtomic).authored edits,
      op.untagged ∈ ops ++ (d.openReplay isAtomic).authored edits := by
    intro op hOp
    rw [authored_untagged edits _ op hOp]
    exact List.mem_append_right _ hOp
  rw [hOpenPending, List.nil_append] at hPending
  unfold replay
  dsimp only
  rw [hAtomic, hPending]
  cases isAtomic with
  | false =>
    rw [if_neg Bool.false_ne_true]
    refine ⟨⟨hClears.minted, hClears.seq, hClears.floor, hClears.apart⟩, hAuthored, ?_⟩
    intro op hOp
    apply List.mem_append_left
    exact hOpenGathers op hOp
  | true =>
    rw [if_pos rfl]
    apply Clears.accounts_commitAtomic
    · exact ⟨hClears.minted, hClears.seq, hClears.floor, hClears.apart⟩
    · intro op hOp
      rcases List.mem_append.mp hOp with hOp | hOp
      · exact List.mem_append_left _ (hOpenGathers op hOp)
      · exact hAuthored op hOp

/-! ### What a decoded snapshot holds -/

omit [Folds σ] in
theorem known_foldl_recordStamp {β : Type} (f : β → Stamp × Nat) (l : List β) (d : Document σ) :
    (l.foldl (fun d b => d.recordStamp (f b).1 (f b).2) d).known = d.known := by
  induction l generalizing d with
  | nil => rfl
  | cons b l ih => rw [List.foldl_cons, ih, known_recordStamp]

theorem known_readState {s : DocState σ} (hRead : readState s = some d) :
    d.known = (decoded { s with buffered := (s.buffer.map Op.id).toFinset }).known := by
  unfold readState at hRead
  split at hRead
  · rw [← Option.some.inj hRead, known_drainBuffer, known_untagResolved,
      known_foldl_recordStamp fun op : Op => (op.stamp, span op.kind)]
  · cases hRead

theorem highWater_readState {s : DocState σ} (hRead : readState s = some d) (client : ClientId) :
    (decoded s).highWater client ≤ d.highWater client := by
  unfold readState at hRead
  split at hRead
  · have hHeld := settles_foldl (fun (d : Document σ) (op : Op) =>
      settles_recordStamp d op.stamp (span op.kind)) s.buffer
        (decoded { s with buffered := (s.buffer.map Op.id).toFinset })
    rw [← Option.some.inj hRead]
    exact ((hHeld.trans (settles_untagResolved _)).trans (settles_drainBuffer _)).highWater client
  · cases hRead

/-- A snapshot is decoded to a replica that holds the ids its bytes name, and no other. -/
theorem shown_decodeState {s : DocState σ} (hDecode : decodeState s = some d) (id : OpId) :
    id ∈ d.seen ∨ id ∈ d.buffered ↔ id ∈ s.seen ∨ id ∈ s.buffer.map Op.id := by
  unfold decodeState at hDecode
  obtain ⟨content, -, hRead⟩ := Option.bind_eq_some_iff.mp hDecode
  have hKept := (follows_readState hRead).booked.kept
  have hHeld : id ∈ s.encoded.buffer.map Op.id ↔ id ∈ s.buffer.map Op.id :=
    ((encoded_perm s).map Op.id).mem_iff
  have hKnown : id ∈ d.known ↔ id ∈ s.seen ∨ id ∈ s.encoded.buffer.map Op.id := by
    rw [known_readState hRead, mem_known]
    simp only [decoded, List.mem_toFinset, or_self]
    rfl
  rw [← hHeld, ← hKnown, mem_known, ← hKept.mem_buffered, or_self]

/-- Decoding takes nothing off the record. -/
theorem highWater_decodeState {s : DocState σ} (hDecode : decodeState s = some d) (client : ClientId) :
    (decoded s).highWater client ≤ d.highWater client := by
  unfold decodeState at hDecode
  obtain ⟨content, -, hRead⟩ := Option.bind_eq_some_iff.mp hDecode
  have hObserved := settles_foldl (fun d stamp => settles_recordStamp d stamp 1)
    (Folds.observedStamps s.content) (decoded s)
  exact (hObserved.highWater client).trans (highWater_readState hRead client)

theorem mem_known_foldl_apply (log : List Op) (d : Document σ) (id : OpId) :
    id ∈ (log.foldl apply d).known ↔
      id ∈ d.known ∨ ∃ logged ∈ log, logged.isAdmissible = true ∧ logged.id = id := by
  induction log generalizing d with
  | nil => simp
  | cons op log ih =>
    rw [List.foldl_cons, ih]
    by_cases hOp : op.isAdmissible = true
    · rw [known_apply d hOp, Finset.mem_insert]
      simp only [List.exists_mem_cons_iff, hOp, true_and, eq_comm (a := id)]
      tauto
    · rw [apply_inadmissible d hOp]
      simp [hOp]

/-- Where an id names one op, an op of a log that can be taken in is on record. -/
theorem highWater_foldl_apply {log : List Op} {op : Op} {d : Document σ} (hNew : op.id ∉ d.known)
    (hOne : ∀ logged ∈ log, logged.id = op.id → logged.untagged = op.untagged)
    (hOp : ∃ logged ∈ log, logged.isAdmissible = true ∧ logged.id = op.id) :
    op.reservationEnd ≤ (log.foldl apply d).highWater op.stamp.client := by
  induction log generalizing d with
  | nil =>
    obtain ⟨logged, hNil, -⟩ := hOp
    cases hNil
  | cons next log ih =>
    rw [List.foldl_cons]
    by_cases hNext : next.isAdmissible = true ∧ next.id = op.id
    · obtain ⟨hAdmissible, hId⟩ := hNext
      have hSame := hOne next List.mem_cons_self hId
      have hStamp : next.untagged.stamp = op.untagged.stamp := by rw [hSame]
      have hKind : next.untagged.kind = op.untagged.kind := by rw [hSame]
      change next.stamp = op.stamp at hStamp
      change next.kind = op.kind at hKind
      have hTaken := highWater_apply (d := d) hAdmissible (hId ▸ hNew)
      have hLater := (settles_foldl settles_apply log (d.apply next)).highWater op.stamp.client
      unfold Op.reservationEnd at hTaken ⊢
      rw [hStamp, hKind] at hTaken
      exact hTaken.trans hLater
    · refine ih ?_ (fun logged hLogged => hOne logged (List.mem_cons_of_mem _ hLogged)) ?_
      · by_cases hAdmissible : next.isAdmissible = true
        · rw [known_apply d hAdmissible, Finset.mem_insert]
          rintro (hId | hKnown)
          · exact hNext ⟨hAdmissible, hId.symm⟩
          · exact hNew hKnown
        · rwa [apply_inadmissible d hAdmissible]
      · obtain ⟨logged, hMem, hLogged⟩ := hOp
        obtain rfl | hMem := List.mem_cons.mp hMem
        · exact absurd hLogged hNext
        · exact ⟨logged, hMem, hLogged⟩

/-- Every edit starts past what the mint of each partition clears. -/
theorem lt_authored {reach : Nat} (edits : List Edit) {d : Document σ}
    (hReach : ∀ zone, reach ≤ d.mintFloor zone) : ∀ op ∈ d.authored edits, reach < op.stamp.lamport := by
  induction edits generalizing d with
  | nil => exact fun op hOp => absurd hOp List.not_mem_nil
  | cons e edits ih =>
    intro op hOp
    obtain hNow | hLater := List.mem_append.mp hOp
    · obtain ⟨-, -, hStart⟩ := emitted_spec (Option.mem_toList.mp hNow)
      rw [hStart]
      exact Nat.lt_succ_of_le (hReach e.zone)
    · refine ih (fun zone => ?_) op hLater
      cases hEmitted : d.emitted e with
      | none =>
        rw [emit_of_emitted_eq_none hEmitted]
        exact hReach zone
      | some first => exact (hReach zone).trans ((emits_of_emitted hEmitted).floor zone)

end Document

/-- What can happen to a channel between subscribing and leaving. -/
inductive Event (σ : Type)
  | edit (edits : List Edit)
  | atomicEdit (edits : List Edit)
  | beginAtomic
  | commitAtomic
  | beginIntention
  | endIntention
  | undo (isAtomic : Bool) (edits : List Edit)
  | evict
  | resubscribe
  | receive (m : Message σ)

namespace Room

variable {σ : Type} {r : Room σ} {zones : Set (Option Nat)} {ops : List Op}

/-- A snapshot whose declared record reaches every position in `ops`: the
partition's clock, or the entry of the channel's own client. -/
def Reaches (zones : Set (Option Nat)) (ops : List Op) (client : ClientId) (s : DocState σ) : Prop :=
  ∀ op ∈ ops, ∀ zone ∈ zones,
    op.reservationEnd ≤ max ((Document.decoded s).clock zone) ((Document.decoded s).highWater client)

/-- The channel's mint clears everything it authored, and everything it holds back
for an acknowledgement or a commit is among it. -/
structure Sound (zones : Set (Option Nat)) (ops : List Op) (r : Room σ) : Prop where
  clears : r.doc.Clears zones ops
  outbox : ∀ op ∈ r.outbox, op.untagged ∈ ops
  gathers : r.doc.Gathers ops

theorem sound_subscribe (client : ClientId) (content : σ) :
    Sound zones [] (subscribe client content) := by
  refine ⟨⟨by simp, by simp, by simp, List.Pairwise.nil⟩, ?_, ?_⟩
  · intro op hOp
    cases hOp
  · intro op hOp
    cases hOp

theorem Sound.settles (h : Sound zones ops r) {d : Document σ} (hd : Document.Settles r.doc d) :
    Sound zones ops { r with doc := d } := by
  refine ⟨hd.clears h.clears, h.outbox, ?_⟩
  intro op hOp
  apply h.gathers
  rw [← hd.atomic]
  exact hOp

/-- Handing a call's ops to the outbox. -/
theorem Sound.enqueue (h : Sound zones ops r) {result : List Op × Document σ} {more : List Op}
    (hResult : Document.Accounts zones (ops ++ more) result) :
    Sound zones (ops ++ more) ({ r with doc := result.2 }.enqueueOps result.1) := by
  refine ⟨hResult.clears, ?_, hResult.gathers⟩
  intro op hOp
  rcases List.mem_append.mp hOp with hOp | hOp
  · exact List.mem_append_left _ (h.outbox op hOp)
  · exact hResult.handed op hOp

section Steps

variable [Folds σ] [TxDigest]

/-- A refused frame touches no room. -/
def step (r : Room σ) : Event σ → Room σ
  | .edit edits => r.edit edits
  | .atomicEdit edits => r.atomicEdit edits
  | .beginAtomic => r.beginAtomic
  | .commitAtomic => r.commitAtomic
  | .beginIntention => { r with doc := r.doc.beginIntention }
  | .endIntention => { r with doc := r.doc.endIntention }
  | .undo isAtomic edits => r.undo isAtomic edits
  | .evict => { r with doc := r.doc.evictPartialTransactions }
  | .resubscribe => r
  | .receive m =>
    match r.receive m with
    | .ok r => r
    | .error _ => r

/-- The ops an event makes the channel author. -/
def authored (r : Room σ) : Event σ → List Op
  | .edit edits => r.doc.openTransact.authored edits
  | .atomicEdit edits => r.doc.beginAtomic.openTransact.authored edits
  | .undo isAtomic edits =>
    if r.doc.recordingIntention then [] else (r.doc.openReplay isAtomic).authored edits
  | _ => []

def run (r : Room σ) : List (Event σ) → Room σ := List.foldl step r

/-- Every op a run makes the channel author, in order. -/
def history (r : Room σ) : List (Event σ) → List Op
  | [] => []
  | event :: events => r.authored event ++ (r.step event).history events

/-- An event that keeps the mint in range: edits land in the partitions of `zones`
and inside the op-seq space, and a snapshot reaches what was authored. -/
def InRange (zones : Set (Option Nat)) (ops : List Op) (r : Room σ) : Event σ → Prop
  | .edit edits => r.doc.openTransact.EditsInRange zones edits
  | .atomicEdit edits => r.doc.beginAtomic.openTransact.EditsInRange zones edits
  | .undo isAtomic edits =>
    r.doc.recordingIntention = false → (r.doc.openReplay isAtomic).EditsInRange zones edits
  | .receive (.snapshot _ (some s)) => r.doc.SeqInRange ∧ Reaches zones ops r.doc.client s
  | _ => True

def AllInRange (zones : Set (Option Nat)) (ops : List Op) (r : Room σ) : List (Event σ) → Prop
  | [] => True
  | event :: events => r.InRange zones ops event ∧
      (r.step event).AllInRange zones (ops ++ r.authored event) events

theorem Sound.receive (h : Sound zones ops r) {m : Message σ}
    (hRange : r.InRange zones ops (.receive m)) : Sound zones ops (r.step (.receive m)) := by
  cases m with
  | ops frame =>
    have hDoc := h.settles (Document.settles_foldl Document.settles_apply frame r.doc)
    exact ⟨hDoc.clears, hDoc.outbox, hDoc.gathers⟩
  | frontier seqs reach =>
    exact h.settles (Document.settles_notePublished r.doc seqs reach)
  | accepted through =>
    exact ⟨h.clears, fun op hOp => h.outbox op (List.mem_filter.mp hOp).1, h.gathers⟩
  | opsRejected seqs reason =>
    refine ⟨h.clears, fun op hOp => ?_, h.gathers⟩
    change op ∈ (r.outbox.partition _).2 at hOp
    rw [List.partition_eq_filter_filter] at hOp
    exact h.outbox op (List.mem_filter.mp hOp).1
  | snapshot seq state =>
    cases state with
    | none => exact h
    | some s =>
      refine ⟨⟨h.clears.minted, ?_, ?_, h.clears.apart⟩, h.outbox, ?_⟩
      · intro op hOp
        exact (h.clears.seq op hOp).trans_le hRange.1.1
      · intro op hOp zone hZone
        rw [Document.mintFloor_eq]
        exact hRange.2 op hOp zone hZone
      · intro op hOp
        cases hOp

theorem Sound.step (h : Sound zones ops r) {event : Event σ} (hRange : r.InRange zones ops event) :
    Sound zones (ops ++ r.authored event) (r.step event) := by
  cases event with
  | edit edits => exact h.enqueue (h.clears.accounts_transact h.gathers hRange)
  | atomicEdit edits =>
    have hTransact := h.clears.beginAtomic.accounts_transact h.gathers.beginAtomic hRange
    exact h.enqueue (hTransact.clears.accounts_commitAtomic hTransact.gathers)
  | undo isAtomic edits =>
    unfold Room.step Room.undo Document.undo
    unfold authored
    by_cases hOpen : r.doc.recordingIntention = true
    · simpa only [hOpen, if_true, List.append_nil] using h
    · simp only [hOpen]
      apply h.enqueue
      exact h.clears.accounts_replay h.gathers (hRange (Bool.eq_false_of_not_eq_true hOpen))
  | receive m =>
    unfold authored
    rw [List.append_nil]
    exact h.receive hRange
  | beginAtomic =>
    unfold authored
    rw [List.append_nil]
    exact ⟨h.clears.beginAtomic, h.outbox, h.gathers.beginAtomic⟩
  | commitAtomic =>
    have hCommit := h.clears.accounts_commitAtomic h.gathers
    unfold authored
    rw [← List.append_nil ops] at hCommit
    exact h.enqueue hCommit
  | evict =>
    unfold authored
    rw [List.append_nil]
    exact h.settles (Document.settles_evictPartialTransactions r.doc)
  | resubscribe =>
    unfold authored
    rw [List.append_nil]
    exact h
  | beginIntention =>
    unfold authored
    rw [List.append_nil]
    exact ⟨⟨h.clears.minted, h.clears.seq, h.clears.floor, h.clears.apart⟩, h.outbox, h.gathers⟩
  | endIntention =>
    unfold authored
    rw [List.append_nil]
    exact ⟨⟨h.clears.minted, h.clears.seq, h.clears.floor, h.clears.apart⟩, h.outbox, h.gathers⟩

theorem Sound.run (h : Sound zones ops r) {events : List (Event σ)}
    (hRange : r.AllInRange zones ops events) :
    Sound zones (ops ++ r.history events) (r.run events) := by
  induction events generalizing r ops with
  | nil =>
    rw [history, List.append_nil]
    exact h
  | cons event events ih =>
    have hRest := ih (h.step hRange.1) hRange.2
    rwa [List.append_assoc] at hRest

theorem history_append (r : Room σ) (events later : List (Event σ)) :
    r.history (events ++ later) = r.history events ++ (r.run events).history later := by
  induction events generalizing r with
  | nil => rfl
  | cons event events ih =>
    rw [List.cons_append, history, history, ih, List.append_assoc]
    rfl

theorem allInRange_append {events later : List (Event σ)} :
    r.AllInRange zones ops (events ++ later) ↔ r.AllInRange zones ops events ∧
      (r.run events).AllInRange zones (ops ++ r.history events) later := by
  induction events generalizing r ops with
  | nil => simp [AllInRange, history, run]
  | cons event events ih =>
    rw [List.cons_append, AllInRange, AllInRange, ih, history, List.append_assoc, and_assoc]
    rfl

/-- In every run whose events keep the mint in range, all authored ops are apart,
and none shares an id or a position with an op then in the outbox. -/
theorem authored_apart (client : ClientId) (content : σ) (zones : Set (Option Nat))
    (events : List (Event σ)) (hRange : (subscribe client content).AllInRange zones [] events) :
    ((subscribe client content).history events).Pairwise Op.Apart ∧
      ∀ before after, events = before ++ after →
        ∀ held ∈ ((subscribe client content).run before).outbox,
          ∀ op ∈ ((subscribe client content).run before).history after, held.Apart op := by
  have hApart := ((sound_subscribe client content).run hRange).clears.apart
  rw [List.nil_append] at hApart
  refine ⟨hApart, ?_⟩
  rintro before after rfl held hHeld op hOp
  have hBefore := (sound_subscribe client content).run (allInRange_append.mp hRange).1
  rw [history_append] at hApart
  exact (List.pairwise_append.mp hApart).2.2 held.untagged (hBefore.outbox held hHeld) op hOp

/-! ### What a snapshot shows of the outbox -/

/-- The replica has taken the op in, and whatever an edit then mints starts above it. -/
structure Reflects (r : Room σ) (op : Op) : Prop where
  known : op.id ∈ r.doc.seen ∨ op.id ∈ r.doc.buffered
  above : op.stamp.client = r.doc.client → ∀ edits, ∀ later ∈ r.authored (.edit edits),
    op.reservationEnd < later.stamp.lamport

omit [TxDigest] in
theorem receive_snapshot {seq : Nat} {s : DocState σ} {r' : Room σ}
    (hReceive : r.receive (.snapshot seq s.reread) = .ok r') :
    ∃ d, Document.decodeState s = some d ∧ r'.outbox = r.outbox ∧ r'.doc.client = r.doc.client ∧
      r'.doc.seen = d.seen ∧ r'.doc.buffered = d.buffered ∧
        ∀ client, r'.doc.highWater client = d.highWater client := by
  unfold DocState.reread at hReceive
  cases hDecode : Document.decodeState s with
  | none =>
    rw [hDecode] at hReceive
    cases hReceive
  | some d =>
    rw [hDecode] at hReceive
    obtain rfl := Except.ok.inj hReceive
    exact ⟨d, rfl, rfl, rfl, rfl, rfl, fun _ => rfl⟩

omit [TxDigest] in
/-- An adopted snapshot shows every op of the outbox exactly when its bytes name them, as applied
or as held. Of a server that has folded a log in, in which an id names one op, these are the ops
that were logged, and every later edit starts above them. -/
theorem outbox_reflected_iff (r : Room σ) (seq : Nat) :
    (∀ (s : DocState σ) (r' : Room σ), r.receive (.snapshot seq s.reread) = .ok r' →
      ((∀ op ∈ r'.outbox, op.id ∈ r'.doc.seen ∨ op.id ∈ r'.doc.buffered) ↔
        ∀ op ∈ r.outbox, op.id ∈ s.seen ∨ op.id ∈ s.buffer.map Op.id)) ∧
      ∀ (server : ClientId) (content : σ) (log : List Op) (r' : Room σ),
        r.receive (.snapshot seq (log.foldl Document.apply (.new server content)).toDocState.reread) =
            .ok r' →
          (∀ op ∈ r.outbox, ∀ logged ∈ log, logged.id = op.id → logged.untagged = op.untagged) →
            ((∀ op ∈ r'.outbox, r'.Reflects op) ↔
              ∀ op ∈ r.outbox, ∃ logged ∈ log, logged.isAdmissible = true ∧ logged.id = op.id) := by
  have hShown : ∀ (s : DocState σ) (r' : Room σ), r.receive (.snapshot seq s.reread) = .ok r' →
      ((∀ op ∈ r'.outbox, op.id ∈ r'.doc.seen ∨ op.id ∈ r'.doc.buffered) ↔
        ∀ op ∈ r.outbox, op.id ∈ s.seen ∨ op.id ∈ s.buffer.map Op.id) := by
    intro s r' hReceive
    obtain ⟨d, hDecode, hOutbox, -, hSeen, hBuffered, -⟩ := receive_snapshot hReceive
    rw [hOutbox, hSeen, hBuffered]
    exact forall₂_congr fun op _ => Document.shown_decodeState hDecode op.id
  refine ⟨hShown, fun server content log r' hReceive hOne => ?_⟩
  have hLogged := hShown _ r' hReceive
  obtain ⟨d, hDecode, hOutbox, hClient, hSeen, hBuffered, hRecord⟩ := receive_snapshot hReceive
  have hSound := (Document.sound_new server content).foldl_apply log
  have hTaken : ∀ id : OpId,
      (id ∈ (log.foldl Document.apply (.new server content)).seen ∨
        id ∈ (log.foldl Document.apply (.new server content)).buffer.map Op.id) ↔
          ∃ logged ∈ log, logged.isAdmissible = true ∧ logged.id = id := by
    intro id
    have hKnown := Document.mem_known_foldl_apply log (.new server content) id
    rw [Document.mem_known, hSound.booked.kept.mem_buffered, or_self] at hKnown
    rw [hKnown, Document.mem_known]
    simp [Document.new]
  constructor
  · intro hReflects op hOp
    exact (hTaken op.id).mp (hLogged.mp (fun op hOp => (hReflects op hOp).known) op hOp)
  · intro hIn op hOp
    refine ⟨hLogged.mpr (fun op hOp => (hTaken op.id).mpr (hIn op hOp)) op hOp, ?_⟩
    intro hOwn edits
    rw [hOutbox] at hOp
    refine Document.lt_authored edits fun zone => ?_
    have hFolded : op.reservationEnd ≤
        (log.foldl Document.apply (.new server content)).highWater op.stamp.client :=
      Document.highWater_foldl_apply (by simp [Document.mem_known, Document.new]) (hOne op hOp)
        (hIn op hOp)
    have hDecoded := Document.highWater_decodeState hDecode op.stamp.client
    have hReach : op.reservationEnd ≤ r'.doc.highWater r'.doc.client := by
      rw [← hOwn, hRecord]
      exact hFolded.trans hDecoded
    rw [Document.mintFloor_eq]
    exact hReach.trans (le_max_right _ _)

end Steps

section Witness

local instance : IdBytes := IdBytes.spelled

local instance : TxDigest := ⟨List.sum⟩

/-- An edit of a root slot, and the op a fresh replica `1` emits for it. -/
def rootEdit : Edit := ⟨ROOT_ID, .mapSet [97] (.int 1), none⟩

def firstOp : Op := ⟨⟨⟨1⟩, 0⟩, ⟨1, ⟨1⟩, 0⟩, ROOT_ID, .mapSet [97] (.int 1), none, none⟩

/-- What a server holds before and after it takes that op in. -/
def emptyState : DocState Content := (Document.new ⟨9⟩ Content.new).toDocState

def firstState : DocState Content := ((Document.new ⟨9⟩ Content.new).apply firstOp).toDocState

theorem authored_apart_across_snapshot :
    ((subscribe ⟨1⟩ Content.new).history
      [.edit [rootEdit], .receive (.snapshot 1 (some firstState)), .edit [rootEdit]]).Pairwise
        Op.Apart := by
  refine (authored_apart ⟨1⟩ Content.new {none} [.edit [rootEdit],
    .receive (.snapshot 1 (some firstState)), .edit [rootEdit]] ⟨⟨?_, rfl, trivial⟩, ⟨?_, ?_⟩,
      ⟨?_, rfl, trivial⟩, trivial⟩).1
  · unfold Document.SeqInRange
    decide +kernel
  · unfold Document.SeqInRange
    decide +kernel
  · intro op hOp zone hZone
    rw [Set.mem_singleton_iff] at hZone
    subst hZone
    revert op
    decide +kernel
  · unfold Document.SeqInRange
    decide +kernel

/-- A snapshot of a room that has not seen the channel's edit lets the next edit
take the same stamp. -/
theorem snapshot_reuses_stamp :
    ¬∀ events : List (Event Content),
      ((subscribe ⟨1⟩ Content.new).history events).Pairwise Op.Apart := by
  intro h
  have hApart := h [.edit [rootEdit], .receive (.snapshot 1 (some emptyState)), .edit [rootEdit]]
  have hHistory : (subscribe ⟨1⟩ Content.new).history
      [.edit [rootEdit], .receive (.snapshot 1 (some emptyState)), .edit [rootEdit]] =
        [firstOp, { firstOp with id := ⟨⟨1⟩, 1⟩ }] := by decide +kernel
  rw [hHistory] at hApart
  have hPair := (List.pairwise_cons.mp hApart).1 _ (List.mem_singleton.mpr rfl)
  exact hPair.2 firstOp.stamp ⟨⟨0, by decide, by decide⟩, ⟨0, by decide, by decide⟩⟩

/-- A channel that has made one edit. -/
def editing : Room Content := (subscribe ⟨1⟩ Content.new).edit [rootEdit]

theorem outbox_reflected_iff_logged :
    ∃ r', editing.receive (.snapshot 1 ([firstOp].foldl Document.apply
        (.new ⟨9⟩ Content.new)).toDocState.reread) = .ok r' ∧
      (∀ op ∈ r'.outbox, op.id ∈ r'.doc.seen ∨ op.id ∈ r'.doc.buffered) ∧
        ∀ op ∈ r'.outbox, r'.Reflects op := by
  have hOutbox : editing.outbox = [firstOp] := by decide +kernel
  cases hReceive : editing.receive (.snapshot 1 ([firstOp].foldl Document.apply
      (.new ⟨9⟩ Content.new)).toDocState.reread) with
  | error e =>
    have hOk : (editing.receive (.snapshot 1 ([firstOp].foldl Document.apply
        (.new ⟨9⟩ Content.new)).toDocState.reread)).toOption.isSome = true := by decide +kernel
    rw [hReceive] at hOk
    cases hOk
  | ok r' =>
    refine ⟨r', rfl, ((outbox_reflected_iff editing 1).1 _ r' hReceive).mpr ?_,
      ((outbox_reflected_iff editing 1).2 ⟨9⟩ Content.new [firstOp] r' hReceive ?_).mpr ?_⟩
    · rw [hOutbox]
      decide +kernel
    · rw [hOutbox]
      decide +kernel
    · rw [hOutbox]
      decide +kernel

/-- The edit still waits in the outbox, and the adopted replica has never seen it. -/
theorem snapshot_drops_pending_edit :
    ¬∀ (r r' : Room Content) (seq : Nat) (s : DocState Content),
      r.receive (.snapshot seq s.reread) = .ok r' →
        ∀ op ∈ r'.outbox, op.id ∈ r'.doc.seen ∨ op.id ∈ r'.doc.buffered := by
  intro hAll
  have hDropped : (editing.receive (.snapshot 1 emptyState.reread)).toOption.map
      (fun r' => (r'.outbox, r'.doc.seen, r'.doc.buffered)) = some ([firstOp], ∅, ∅) := by
    decide +kernel
  cases hReceive : editing.receive (.snapshot 1 emptyState.reread) with
  | error e =>
    rw [hReceive] at hDropped
    cases hDropped
  | ok r' =>
    rw [hReceive] at hDropped
    have hState : (r'.outbox, r'.doc.seen, r'.doc.buffered) = ([firstOp], ∅, ∅) :=
      Option.some.inj hDropped
    obtain ⟨hOutbox, hHeld⟩ := Prod.mk.injEq .. ▸ hState
    obtain ⟨hSeen, hBuffered⟩ := Prod.mk.injEq .. ▸ hHeld
    have hShown := hAll editing r' 1 emptyState hReceive firstOp (by simp [hOutbox])
    rw [hSeen, hBuffered] at hShown
    simp at hShown

end Witness

end Room

end CrdtSync
