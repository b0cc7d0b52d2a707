import CrdtSync.Core.DocumentFrame

/-!
# Merged state

What folding ops determines of a replica: everything but whose replica it is and the
local edits it has open. Two replicas that agree on it still agree after any op.
-/

namespace CrdtSync

open Std (ExtTreeMap)

structure Merged (σ : Type) where
  content : σ
  lamport : Nat
  zoneClocks : ExtTreeMap Nat Nat compare
  stampHighWater : ExtTreeMap ClientId Nat compare
  seen : Finset OpId
  buffer : List Op
  buffered : Finset OpId
  resolvedTx : Finset TxKey

namespace Document

variable {σ : Type}

def merged (d : Document σ) : Merged σ :=
  ⟨d.content, d.lamport, d.zoneClocks, d.stampHighWater, d.seen, d.buffer, d.buffered, d.resolvedTx⟩

/-- The merged state of `d` in the replica `holder`. -/
def heldBy (d holder : Document σ) : Document σ :=
  { d with
    client := holder.client
    seq := holder.seq
    reserved := holder.reserved
    mintRefused := holder.mintRefused
    atomic := holder.atomic
    pending := holder.pending
    depth := holder.depth }

@[simp] theorem merged_heldBy (d holder : Document σ) : (d.heldBy holder).merged = d.merged := rfl

theorem eq_heldBy {d d' : Document σ} (h : d'.merged = d.merged) : d' = d.heldBy d' := by
  obtain ⟨s, _, _, _, _⟩ := d
  obtain ⟨s', _, _, _, _⟩ := d'
  cases s
  cases s'
  cases h
  rfl

theorem merged_decoded (d : Document σ) : (decoded d.toDocState).merged = d.merged := rfl

section Held

variable (d holder : Document σ)

theorem heldBy_advanceClock (zone : Option Nat) (floor : Nat) :
    (d.heldBy holder).advanceClock zone floor = (d.advanceClock zone floor).heldBy holder := by
  cases zone <;> rfl

theorem heldBy_recordStamp (stamp : Stamp) (n : Nat) :
    (d.heldBy holder).recordStamp stamp n = (d.recordStamp stamp n).heldBy holder := by
  unfold recordStamp
  dsimp only
  split <;> rfl

theorem heldBy_resolveTx (key : TxKey) :
    (d.heldBy holder).resolveTx key = (d.resolveTx key).heldBy holder := by
  unfold resolveTx
  by_cases hKey : key ∈ d.resolvedTx
  · rw [if_pos hKey, if_pos (show key ∈ (d.heldBy holder).resolvedTx from hKey)]
  · rw [if_neg hKey, if_neg (show key ∉ (d.heldBy holder).resolvedTx from hKey)]
    rfl

variable [Folds σ]

theorem heldBy_applyNow (op : Op) :
    (d.heldBy holder).applyNow op = (d.applyNow op).heldBy holder := by
  have hKind : ∀ d : Document σ, (d.heldBy holder).applyKind op.target op.kind op.stamp op.id.client =
      (d.applyKind op.target op.kind op.stamp op.id.client).heldBy holder := by
    intro d
    unfold applyKind
    rw [heldBy_recordStamp]
    rfl
  unfold applyNow
  dsimp only
  rw [← hKind, ← heldBy_advanceClock]
  rfl

theorem heldBy_commitMember (op : Op) :
    (d.heldBy holder).commitMember op = (d.commitMember op).heldBy holder := by
  unfold commitMember
  change (if Folds.ready d.content op = true then _ else _) = _
  split
  · rw [← heldBy_applyNow]
    rfl
  · rfl

theorem heldBy_foldl_commitMember (members : List Op) :
    members.foldl commitMember (d.heldBy holder) = (members.foldl commitMember d).heldBy holder := by
  induction members generalizing d with
  | nil => rfl
  | cons op members ih =>
    rw [List.foldl_cons, heldBy_commitMember]
    exact ih _

theorem heldBy_commitGroup (key : TxKey) :
    (d.heldBy holder).commitGroup key = (d.commitGroup key).heldBy holder := by
  unfold commitGroup
  dsimp only
  rw [← heldBy_foldl_commitMember, ← heldBy_resolveTx]
  rfl

theorem heldBy_drainStep :
    (d.heldBy holder).drainStep = d.drainStep.map fun d' => d'.heldBy holder := by
  have hBuffer : (d.heldBy holder).buffer = d.buffer := rfl
  have hContent : (d.heldBy holder).content = d.content := rfl
  unfold drainStep
  rw [hBuffer, hContent]
  cases d.buffer.find? fun op => op.tx.isNone && Folds.ready d.content op with
  | some op =>
    rw [Option.map_some, ← heldBy_applyNow]
    rfl
  | none =>
    dsimp only
    by_cases hSplit : (d.disagreeing.any fun key => decide (key ∉ d.resolvedTx)) = true
    · rw [if_pos hSplit]
      exact if_pos hSplit
    · rw [if_neg hSplit]
      refine (if_neg hSplit).trans ?_
      rw [Option.map_map]
      refine congrArg (Option.map · d.complete) ?_
      funext key
      exact heldBy_commitGroup d holder key

theorem heldBy_drainBuffer : (d.heldBy holder).drainBuffer = d.drainBuffer.heldBy holder := by
  have hLoop : ∀ fuel (d : Document σ),
      drainLoop fuel (d.heldBy holder) = (drainLoop fuel d).heldBy holder := by
    intro fuel
    induction fuel with
    | zero => exact fun d => rfl
    | succ fuel ih =>
      intro d
      unfold drainLoop
      rw [heldBy_drainStep]
      cases d.drainStep with
      | none => rfl
      | some d' => exact ih d'
  exact hLoop _ d

theorem heldBy_applyDuplicate (op : Op) :
    (d.heldBy holder).applyDuplicate op = (d.applyDuplicate op).heldBy holder := by
  unfold applyDuplicate
  by_cases hHeld : op.id ∉ d.buffered
  · rw [if_pos hHeld, if_pos (show op.id ∉ (d.heldBy holder).buffered from hHeld)]
  · rw [if_neg hHeld, if_neg (show ¬op.id ∉ (d.heldBy holder).buffered from hHeld)]
    have hTx : (d.heldBy holder).bufferedTx op.id = d.bufferedTx op.id := rfl
    rw [hTx]
    cases op.tx with
    | none => rfl
    | some tx =>
      cases d.bufferedTx op.id with
      | none => rfl
      | some held =>
        dsimp only
        split
        · rfl
        · rw [heldBy_resolveTx, heldBy_resolveTx, heldBy_drainBuffer]

theorem heldBy_accept (op : Op) :
    (d.heldBy holder).accept op = (d.accept op).heldBy holder := by
  have hContent : (d.heldBy holder).content = d.content := rfl
  unfold accept
  rw [hContent]
  split
  · rw [heldBy_recordStamp, ← heldBy_drainBuffer]
    rfl
  · split
    · rw [heldBy_applyNow, heldBy_drainBuffer]
    · rw [heldBy_recordStamp]
      rfl

/-- Folding an op in does not ask whose replica it is. -/
theorem merged_apply_heldBy (op : Op) :
    ((d.heldBy holder).apply op).merged = (d.apply op).merged := by
  unfold apply
  by_cases hAdmissible : (!op.isAdmissible) = true
  · rw [if_pos hAdmissible, if_pos hAdmissible]
    rfl
  rw [if_neg hAdmissible, if_neg hAdmissible]
  by_cases hSeen : op.id ∈ d.seen ∨ op.id ∈ d.buffered
  · rw [if_pos hSeen]
    refine (congrArg merged (if_pos hSeen)).trans ?_
    rw [heldBy_applyDuplicate, merged_heldBy]
  · rw [if_neg hSeen]
    refine (congrArg merged (if_neg hSeen)).trans ?_
    -- only what the replica had reserved for itself is told apart
    have hDestray : (d.heldBy holder).destray op = d.destray op := rfl
    have hErase : ({ d.heldBy holder with reserved := holder.reserved.erase op.id } : Document σ) =
        ({ d with reserved := d.reserved.erase op.id }).heldBy
          { holder with reserved := holder.reserved.erase op.id } := rfl
    change (({ d.heldBy holder with reserved := holder.reserved.erase op.id } : Document σ).accept
      ((d.heldBy holder).destray op)).merged = _
    rw [hDestray, hErase, heldBy_accept, merged_heldBy]

end Held

variable [Folds σ] {d d' : Document σ}

theorem merged_apply_congr (h : d'.merged = d.merged) (op : Op) :
    (d'.apply op).merged = (d.apply op).merged := by
  rw [eq_heldBy h, merged_apply_heldBy]

theorem merged_foldl_apply_congr (h : d'.merged = d.merged) (ops : List Op) :
    (ops.foldl apply d').merged = (ops.foldl apply d).merged := by
  induction ops generalizing d d' with
  | nil => exact h
  | cons op ops ih => exact ih (merged_apply_congr h op)

end Document

end CrdtSync
