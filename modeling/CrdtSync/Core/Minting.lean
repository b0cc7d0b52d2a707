import CrdtSync.Core.DocumentFrame

/-!
# Minting

Which ids a local edit takes. A replica clears a set of ops when its next mint in
any partition lands past every id and every position they hold; an edit keeps it
so for the op it emits, and delivery keeps it so for free.
-/

namespace CrdtSync

namespace Op

/-- The id-space positions an op takes. -/
def Reserves (op : Op) (id : Stamp) : Prop := ∃ k < span op.kind, id = op.stamp.runMember k

/-- Two ops that share no op id and no position. -/
def Apart (a b : Op) : Prop := a.id ≠ b.id ∧ ∀ id, ¬(a.Reserves id ∧ b.Reserves id)

/-- A reservation the mint can have made: it ends inside the id space. -/
def Minted (op : Op) (client : ClientId) : Prop :=
  op.id.client = client ∧ op.stamp.client = client ∧ op.stamp.offset = 0 ∧
    op.stamp.lamport + (span op.kind - 1) ≤ LAMPORT_STATE_CEILING

theorem Minted.reservationEnd {op : Op} {client : ClientId} (h : op.Minted client) :
    op.reservationEnd = op.stamp.lamport + (span op.kind - 1) := by
  have hCeiling : LAMPORT_STATE_CEILING ≤ u64Max := by decide
  exact min_eq_left (h.2.2.2.trans hCeiling)

theorem Minted.lamport_of_reserves {op : Op} {client : ClientId} {id : Stamp}
    (h : op.Minted client) (hId : op.Reserves id) :
    op.stamp.lamport ≤ id.lamport ∧ id.lamport ≤ op.reservationEnd := by
  obtain ⟨k, hk, rfl⟩ := hId
  have hCeiling : LAMPORT_STATE_CEILING ≤ u64Max := by decide
  have hEnd := h.2.2.2
  have hMember : checkedAdd op.stamp.lamport k = some (op.stamp.lamport + k) :=
    checkedAdd_eq_some.mpr ⟨rfl, by omega⟩
  rw [h.reservationEnd, Stamp.runMember, hMember]
  dsimp only
  omega

theorem apart_of_above {a b : Op} {client : ClientId} (ha : a.Minted client) (hb : b.Minted client)
    (hSeq : a.id.seq < b.id.seq) (hAbove : a.reservationEnd < b.stamp.lamport) : a.Apart b := by
  refine ⟨fun h => ?_, fun id h => ?_⟩
  · rw [h] at hSeq
    exact lt_irrefl _ hSeq
  · have hLow := (ha.lamport_of_reserves h.1).2
    have hHigh := (hb.lamport_of_reserves h.2).1
    omega

end Op

namespace Document

variable {σ : Type} {d d' : Document σ} {zones : Set (Option Nat)} {ops : List Op}

/-- The op an edit emits, unless the mint refuses it. -/
def emitted (d : Document σ) (e : Edit) : Option Op :=
  if d.mintRefused then none
  else
    (mintPosition (d.mintFloor e.zone) (span e.kind) d.client).map fun stamp =>
      ⟨⟨d.client, d.nextSeq⟩, stamp, e.target, e.kind, none, e.zone⟩

/-- The op-seq search has not come round the end of its space. -/
def SeqInRange (d : Document σ) : Prop := d.seq ≤ d.nextSeq ∧ d.nextSeq + 1 < 2 ^ 64

/-- The next mint, in any partition of `zones`, is past everything `ops` hold. -/
structure Clears (zones : Set (Option Nat)) (ops : List Op) (d : Document σ) : Prop where
  minted : ∀ op ∈ ops, op.Minted d.client
  seq : ∀ op ∈ ops, op.id.seq < d.seq
  floor : ∀ op ∈ ops, ∀ zone ∈ zones, op.reservationEnd ≤ d.mintFloor zone
  apart : ops.Pairwise Op.Apart

theorem Settles.clears (h : Settles d d') (hClears : d.Clears zones ops) :
    d'.Clears zones ops where
  minted op hOp := h.client ▸ hClears.minted op hOp
  seq op hOp := h.seq ▸ hClears.seq op hOp
  floor op hOp zone hZone := (hClears.floor op hOp zone hZone).trans (h.mintFloor zone)
  apart := hClears.apart

theorem nextSeq_advanceClock (d : Document σ) (zone : Option Nat) (floor : Nat) :
    (d.advanceClock zone floor).nextSeq = d.nextSeq := by
  cases zone <;> rfl

theorem emitted_spec {e : Edit} {op : Op} (h : d.emitted e = some op) :
    op.Minted d.client ∧ op.id.seq = d.nextSeq ∧ op.stamp.lamport = d.mintFloor e.zone + 1 := by
  unfold emitted at h
  by_cases hRefused : d.mintRefused = true
  · rw [if_pos hRefused] at h
    cases h
  rw [if_neg hRefused] at h
  obtain ⟨stamp, hStamp, rfl⟩ := Option.map_eq_some_iff.mp h
  obtain ⟨rfl, hEnd⟩ := mintPosition_eq_some.mp hStamp
  exact ⟨⟨rfl, rfl, rfl, hEnd⟩, rfl, rfl⟩

variable [Folds σ]

theorem emit_of_emitted_eq_none {e : Edit} (h : d.emitted e = none) :
    d.emit e = { d with mintRefused := true } := by
  unfold emitted at h
  unfold emit
  by_cases hRefused : d.mintRefused = true
  · rw [if_pos hRefused, ← hRefused]
  · rw [if_neg hRefused] at h ⊢
    rw [Option.map_eq_none_iff.mp h]

/-- What an edit that is not refused leaves: the sequence counted on, the
reservation recorded, the op gathered, and nothing else local changed. -/
structure Emits (d d' : Document σ) (op : Op) : Prop where
  client : d'.client = d.client
  seq : d'.seq = (d.nextSeq + 1) % 2 ^ 64
  pending : d'.pending = d.pending ++ [op]
  atomic : d'.atomic = d.atomic
  depth : d'.depth = d.depth
  floor : ∀ zone, d.mintFloor zone ≤ d'.mintFloor zone
  reserved : op.reservationEnd ≤ d'.highWater d.client

theorem emits_of_emitted {e : Edit} {op : Op} (h : d.emitted e = some op) :
    Emits d (d.emit e) op := by
  obtain ⟨hMinted, -, -⟩ := emitted_spec h
  unfold emitted at h
  by_cases hRefused : d.mintRefused = true
  · rw [if_pos hRefused] at h
    cases h
  rw [if_neg hRefused] at h
  obtain ⟨stamp, hStamp, rfl⟩ := Option.map_eq_some_iff.mp h
  have hClock := settles_advanceClock d e.zone (stamp.lamport + span e.kind - 1)
  unfold emit
  rw [if_neg hRefused, hStamp]
  dsimp only
  generalize hd₁ : d.advanceClock e.zone (stamp.lamport + span e.kind - 1) = d₁ at hClock
  have hSeq : d₁.nextSeq = d.nextSeq := hd₁ ▸ nextSeq_advanceClock ..
  have hKind := settles_applyKind d₁.mintOpId.2 e.target e.kind stamp d₁.mintOpId.2.client
  refine ⟨hKind.client.trans hClock.client, hKind.seq.trans ?_, ?_, hKind.atomic.trans hClock.atomic,
    hKind.depth.trans hClock.depth, fun zone => (hClock.mintFloor zone).trans (hKind.mintFloor zone),
    ?_⟩
  · exact congrArg (fun seq => (seq + 1) % 2 ^ 64) hSeq
  · have hPending := hKind.pending.trans hClock.pending
    have hId : d₁.mintOpId.1 = ⟨d.client, d.nextSeq⟩ := by rw [← hSeq, ← hClock.client]; rfl
    rw [hPending, hId]
  · have hHigh := highWater_recordStamp d₁.mintOpId.2 stamp (span e.kind) d.client
    rw [if_pos hMinted.2.1.symm] at hHigh
    have hEnd : reservationEnd stamp (span e.kind) ≤ LAMPORT_STATE_CEILING :=
      hMinted.reservationEnd.trans_le hMinted.2.2.2
    rw [min_eq_left hEnd] at hHigh
    exact (le_max_right _ _).trans hHigh.ge

/-- An edit whose op id and partition are in range leaves the mint clear of the op
it emitted as well. -/
theorem Clears.emit {e : Edit} (h : d.Clears zones ops) (hSeq : d.SeqInRange)
    (hZone : e.zone ∈ zones) : (d.emit e).Clears zones (ops ++ (d.emitted e).toList) := by
  cases hEmitted : d.emitted e with
  | none =>
    rw [emit_of_emitted_eq_none hEmitted, Option.toList_none, List.append_nil]
    exact ⟨h.minted, h.seq, h.floor, h.apart⟩
  | some op =>
    obtain ⟨hMinted, hId, hAbove⟩ := emitted_spec hEmitted
    have hEmits := emits_of_emitted hEmitted
    have hNext : (d.emit e).seq = d.nextSeq + 1 := by
      rw [hEmits.seq, Nat.mod_eq_of_lt hSeq.2]
    have hOld : ∀ a ∈ ops, a.id.seq < op.id.seq := fun a ha =>
      (h.seq a ha).trans_le (hSeq.1.trans_eq hId.symm)
    rw [Option.toList_some]
    refine ⟨?_, ?_, ?_, ?_⟩
    · intro a ha
      rw [hEmits.client]
      rcases List.mem_append.mp ha with ha | ha
      · exact h.minted a ha
      · exact List.mem_singleton.mp ha ▸ hMinted
    · intro a ha
      rw [hNext, ← hId]
      rcases List.mem_append.mp ha with ha | ha
      · exact (hOld a ha).trans (Nat.lt_succ_self _)
      · exact List.mem_singleton.mp ha ▸ Nat.lt_succ_self _
    · intro a ha zone hIn
      rcases List.mem_append.mp ha with ha | ha
      · exact (h.floor a ha zone hIn).trans (hEmits.floor zone)
      · rw [List.mem_singleton.mp ha, mintFloor_eq, hEmits.client]
        exact hEmits.reserved.trans (le_max_right _ _)
    · refine List.pairwise_append.mpr ⟨h.apart, List.pairwise_singleton _ _, ?_⟩
      intro a ha b hb
      rw [List.mem_singleton.mp hb]
      apply Op.apart_of_above (h.minted a ha) hMinted (hOld a ha)
      rw [hAbove]
      exact Nat.lt_succ_of_le (h.floor a ha e.zone hZone)

section Runs

/-- The ops a run of edits emits. -/
def authored (d : Document σ) : List Edit → List Op
  | [] => []
  | e :: edits => (d.emitted e).toList ++ (d.emit e).authored edits

/-- Every edit lands in a partition of `zones`, and no mint passes the end of the
op-seq space. -/
def EditsInRange (zones : Set (Option Nat)) (d : Document σ) : List Edit → Prop
  | [] => True
  | e :: edits => d.SeqInRange ∧ e.zone ∈ zones ∧ (d.emit e).EditsInRange zones edits

theorem Clears.emitAll {edits : List Edit} (h : d.Clears zones ops)
    (hRange : d.EditsInRange zones edits) :
    (d.emitAll edits).Clears zones (ops ++ d.authored edits) := by
  induction edits generalizing d ops with
  | nil =>
    rw [authored, List.append_nil]
    exact h
  | cons e edits ih =>
    obtain ⟨hSeq, hZone, hRest⟩ := hRange
    have hNext := ih (h.emit hSeq hZone) hRest
    rwa [List.append_assoc] at hNext

theorem emit_atomic (d : Document σ) (e : Edit) : (d.emit e).atomic = d.atomic := by
  cases hEmitted : d.emitted e with
  | none => rw [emit_of_emitted_eq_none hEmitted]
  | some op => exact (emits_of_emitted hEmitted).atomic

theorem emit_pending (d : Document σ) (e : Edit) :
    (d.emit e).pending = d.pending ++ (d.emitted e).toList := by
  cases hEmitted : d.emitted e with
  | none =>
    rw [emit_of_emitted_eq_none hEmitted]
    simp
  | some op => exact (emits_of_emitted hEmitted).pending

theorem emitAll_atomic (d : Document σ) (edits : List Edit) :
    (d.emitAll edits).atomic = d.atomic := by
  induction edits generalizing d with
  | nil => rfl
  | cons e edits ih => exact (ih (d.emit e)).trans (emit_atomic d e)

theorem emitAll_pending (d : Document σ) (edits : List Edit) :
    (d.emitAll edits).pending = d.pending ++ d.authored edits := by
  induction edits generalizing d with
  | nil => simp [emitAll, authored]
  | cons e edits ih =>
    have hRest := ih (d.emit e)
    rw [emit_pending, List.append_assoc] at hRest
    exact hRest

end Runs

end Document

end CrdtSync
