import CrdtSync.Core.Document

/-!
# What delivery leaves alone

Folding foreign ops, draining the buffer and spending group keys never touch the
identity, the op-seq position or the ops a replica is gathering, and never lower
a clock or an id-space high-water.
-/

namespace CrdtSync

namespace Document

open Lib

variable {σ : Type} {d d' d'' : Document σ}

theorem mintFloor_eq (d : Document σ) (zone : Option Nat) :
    d.mintFloor zone = max (d.clock zone) (d.highWater d.client) := by
  unfold mintFloor highWater
  cases d.stampHighWater[d.client]? with
  | none => simp
  | some own => rfl

/-- The mint keeps its place: nothing local changed, and every floor still holds. -/
structure Settles (d d' : Document σ) : Prop where
  client : d'.client = d.client
  seq : d'.seq = d.seq
  pending : d'.pending = d.pending
  atomic : d'.atomic = d.atomic
  depth : d'.depth = d.depth
  mintRefused : d'.mintRefused = d.mintRefused
  clock : ∀ zone, d.clock zone ≤ d'.clock zone
  highWater : ∀ client, d.highWater client ≤ d'.highWater client

namespace Settles

theorem refl (d : Document σ) : Settles d d :=
  ⟨rfl, rfl, rfl, rfl, rfl, rfl, fun _ => le_rfl, fun _ => le_rfl⟩

theorem trans (h : Settles d d') (h' : Settles d' d'') : Settles d d'' where
  client := h'.client.trans h.client
  seq := h'.seq.trans h.seq
  pending := h'.pending.trans h.pending
  atomic := h'.atomic.trans h.atomic
  depth := h'.depth.trans h.depth
  mintRefused := h'.mintRefused.trans h.mintRefused
  clock zone := (h.clock zone).trans (h'.clock zone)
  highWater client := (h.highWater client).trans (h'.highWater client)

theorem mintFloor (h : Settles d d') (zone : Option Nat) : d.mintFloor zone ≤ d'.mintFloor zone := by
  rw [mintFloor_eq, mintFloor_eq, h.client]
  exact max_le_max (h.clock zone) (h.highWater d.client)

theorem of_sets (d : Document σ) (content : σ) (seen reserved buffered : Finset OpId)
    (buffer : List Op) (resolvedTx : Finset TxKey) :
    Settles d { d with content, seen, reserved, buffered, buffer, resolvedTx } :=
  ⟨rfl, rfl, rfl, rfl, rfl, rfl, fun _ => le_rfl, fun _ => le_rfl⟩

end Settles

section Clocks

theorem clock_advanceClock (d : Document σ) (zone other : Option Nat) (floor : Nat) :
    (d.advanceClock zone floor).clock other =
      if other = zone then max (d.clock zone) floor else d.clock other := by
  cases zone with
  | none => cases other <;> simp [advanceClock, clock]
  | some zone =>
    cases other with
    | none => simp [advanceClock, clock]
    | some other =>
      simp only [advanceClock, clock, getElem?_insert_ite, Option.some.injEq]
      by_cases hEq : other = zone
      · simp [hEq]
      · simp [hEq]

theorem settles_advanceClock (d : Document σ) (zone : Option Nat) (floor : Nat) :
    Settles d (d.advanceClock zone floor) := by
  have hClock : ∀ other, d.clock other ≤ (d.advanceClock zone floor).clock other := by
    intro other
    rw [clock_advanceClock]
    by_cases hEq : other = zone
    · rw [if_pos hEq, hEq]
      exact le_max_left _ _
    · rw [if_neg hEq]
  cases zone <;> exact ⟨rfl, rfl, rfl, rfl, rfl, rfl, hClock, fun _ => le_rfl⟩

theorem highWater_recordStamp (d : Document σ) (stamp : Stamp) (n : Nat) (client : ClientId) :
    (d.recordStamp stamp n).highWater client =
      if client = stamp.client then
        max (d.highWater client) (min (reservationEnd stamp n) LAMPORT_STATE_CEILING)
      else d.highWater client := by
  unfold recordStamp
  by_cases hZero : reservationEnd stamp n = 0
  · simp [hZero]
  · simp only [hZero, if_false, highWater, getElem?_insert_ite]
    by_cases hEq : client = stamp.client
    · simp [hEq]
    · simp [hEq]

theorem settles_recordStamp (d : Document σ) (stamp : Stamp) (n : Nat) :
    Settles d (d.recordStamp stamp n) := by
  have hHigh : ∀ client, d.highWater client ≤ (d.recordStamp stamp n).highWater client := by
    intro client
    rw [highWater_recordStamp]
    by_cases hEq : client = stamp.client
    · rw [if_pos hEq]
      exact le_max_left _ _
    · rw [if_neg hEq]
  unfold recordStamp at hHigh ⊢
  by_cases hZero : reservationEnd stamp n = 0
  · simpa [hZero] using Settles.refl d
  · simp only [hZero, if_false] at hHigh ⊢
    exact ⟨rfl, rfl, rfl, rfl, rfl, rfl, fun zone => by cases zone <;> rfl, hHigh⟩

end Clocks

section Buffer

theorem settles_hold (d : Document σ) (op : Op) : Settles d (d.hold op) := Settles.of_sets ..

theorem settles_untagResolved (d : Document σ) : Settles d d.untagResolved := Settles.of_sets ..

theorem settles_resolveTx (d : Document σ) (key : TxKey) : Settles d (d.resolveTx key) := by
  unfold resolveTx
  by_cases hKey : key ∈ d.resolvedTx
  · rw [if_pos hKey]
    exact Settles.refl d
  · rw [if_neg hKey]
    exact (Settles.of_sets ..).trans (settles_untagResolved _)

theorem settles_foldl {β : Type} {f : Document σ → β → Document σ}
    (hf : ∀ d b, Settles d (f d b)) (l : List β) (d : Document σ) : Settles d (l.foldl f d) := by
  induction l generalizing d with
  | nil => exact Settles.refl d
  | cons b l ih => exact (hf d b).trans (ih (f d b))

theorem settles_notePublished (d : Document σ) (seqs : List Nat) (reach : Nat) :
    Settles d (d.notePublished seqs reach) := by
  unfold notePublished
  dsimp only
  refine (settles_foldl (fun d seq => ?_) seqs d).trans (settles_recordStamp ..)
  split
  · exact Settles.of_sets ..
  · exact Settles.refl d

variable [Folds σ]

theorem settles_applyKind (d : Document σ) (target : ElementId) (kind : OpKind) (stamp : Stamp)
    (author : ClientId) : Settles d (d.applyKind target kind stamp author) :=
  (settles_recordStamp d stamp (span kind)).trans (Settles.of_sets ..)

theorem settles_applyNow (d : Document σ) (op : Op) : Settles d (d.applyNow op) := by
  unfold applyNow
  exact ((Settles.of_sets ..).trans (settles_advanceClock ..)).trans (settles_applyKind ..)

theorem settles_commitMember (d : Document σ) (op : Op) : Settles d (d.commitMember op) := by
  unfold commitMember
  by_cases hReady : Folds.ready d.content op = true
  · rw [if_pos hReady]
    exact (Settles.of_sets ..).trans (settles_applyNow ..)
  · rw [if_neg hReady]
    exact settles_hold ..

theorem settles_commitGroup (d : Document σ) (key : TxKey) : Settles d (d.commitGroup key) := by
  unfold commitGroup
  exact ((Settles.of_sets ..).trans (settles_resolveTx ..)).trans
    (settles_foldl settles_commitMember ..)

theorem settles_drainStep (h : d.drainStep = some d') : Settles d d' := by
  unfold drainStep at h
  cases hFind : d.buffer.find? fun op => op.tx.isNone && Folds.ready d.content op with
  | some op =>
    rw [hFind] at h
    obtain rfl := Option.some.inj h
    exact (Settles.of_sets ..).trans (settles_applyNow ..)
  | none =>
    rw [hFind] at h
    dsimp only at h
    by_cases hSplit : (d.disagreeing.any fun key => decide (key ∉ d.resolvedTx)) = true
    · rw [if_pos hSplit] at h
      obtain rfl := Option.some.inj h
      exact (Settles.of_sets ..).trans (settles_untagResolved ..)
    · rw [if_neg hSplit] at h
      obtain ⟨key, -, rfl⟩ := Option.map_eq_some_iff.mp h
      exact settles_commitGroup ..

theorem settles_drainLoop (fuel : Nat) (d : Document σ) : Settles d (drainLoop fuel d) := by
  induction fuel generalizing d with
  | zero => exact Settles.refl d
  | succ fuel ih =>
    unfold drainLoop
    cases hStep : d.drainStep with
    | none => exact Settles.refl d
    | some d' => exact (settles_drainStep hStep).trans (ih d')

theorem settles_drainBuffer (d : Document σ) : Settles d d.drainBuffer := settles_drainLoop ..

theorem settles_applyDuplicate (d : Document σ) (op : Op) : Settles d (d.applyDuplicate op) := by
  unfold applyDuplicate
  by_cases hHeld : op.id ∉ d.buffered
  · rw [if_pos hHeld]
    exact Settles.refl d
  · rw [if_neg hHeld]
    cases op.tx with
    | none => exact Settles.refl d
    | some tx =>
      cases d.bufferedTx op.id with
      | none => exact Settles.refl d
      | some held =>
        dsimp only
        by_cases hSame : held = tx
        · rw [if_pos hSame]
          exact Settles.refl d
        · rw [if_neg hSame]
          exact ((settles_resolveTx ..).trans (settles_resolveTx ..)).trans
            (settles_drainBuffer ..)

theorem settles_accept (d : Document σ) (op : Op) : Settles d (d.accept op) := by
  have hWait : Settles d ((d.recordStamp op.stamp (span op.kind)).hold op) :=
    (settles_recordStamp ..).trans (settles_hold ..)
  unfold accept
  by_cases hTx : op.tx.isSome = true
  · rw [if_pos hTx]
    exact hWait.trans (settles_drainBuffer ..)
  rw [if_neg hTx]
  by_cases hReady : Folds.ready d.content op = true
  · rw [if_pos hReady]
    exact (settles_applyNow ..).trans (settles_drainBuffer ..)
  · rw [if_neg hReady]
    exact hWait

theorem settles_apply (d : Document σ) (op : Op) : Settles d (d.apply op) := by
  unfold apply
  by_cases hAdmissible : (!op.isAdmissible) = true
  · rw [if_pos hAdmissible]
    exact Settles.refl d
  rw [if_neg hAdmissible]
  by_cases hHeld : op.id ∈ d.seen ∨ op.id ∈ d.buffered
  · rw [if_pos hHeld]
    exact settles_applyDuplicate ..
  · rw [if_neg hHeld]
    exact (Settles.of_sets ..).trans (settles_accept ..)

theorem settles_evictPartialTransactions (d : Document σ) :
    Settles d d.evictPartialTransactions := by
  unfold evictPartialTransactions
  dsimp only
  split
  · exact Settles.refl d
  · exact (Settles.of_sets ..).trans (settles_drainBuffer ..)

end Buffer

end Document

end CrdtSync
