import CrdtSync.Core.Document

/-!
# Traced replicas

A replica decides when to fold a mutation from what its content answers, so content
that also writes down every mutation it is given leaves the run as it was. The
mutations of a run are read off the traced run.
-/

namespace CrdtSync

/-- A mutation with the content it met. -/
structure Mutation (σ : Type) where
  met : σ
  target : ElementId
  kind : OpKind
  stamp : Stamp

/-- Content with every mutation folded into it, first to last. -/
structure Traced (σ : Type) where
  content : σ
  trace : List (Mutation σ)

instance {σ : Type} [Folds σ] : Folds (Traced σ) where
  ready t op := Folds.ready t.content op
  applyKind t target kind stamp author :=
    ⟨Folds.applyKind t.content target kind stamp author,
      t.trace ++ [⟨t.content, target, kind, stamp⟩]⟩
  restored t := (Folds.restored t.content).map fun content => ⟨content, t.trace⟩
  observedStamps t := Folds.observedStamps t.content

/-- A map of contents that commutes with all the delivery layer asks of them. -/
structure FoldsHom {σ τ : Type} [Folds σ] [Folds τ] (f : σ → τ) : Prop where
  ready : ∀ s op, Folds.ready (f s) op = Folds.ready s op
  applyKind : ∀ s target kind stamp author,
    Folds.applyKind (f s) target kind stamp author = f (Folds.applyKind s target kind stamp author)

theorem foldsHom_content {σ : Type} [Folds σ] : FoldsHom (Traced.content (σ := σ)) :=
  ⟨fun _ _ => rfl, fun _ _ _ _ _ => rfl⟩

namespace Document

variable {σ τ : Type} (f : σ → τ)

/-- The replica over the image of its content. -/
def mapContent (d : Document σ) : Document τ where
  client := d.client
  content := f d.content
  lamport := d.lamport
  zoneClocks := d.zoneClocks
  stampHighWater := d.stampHighWater
  seq := d.seq
  seen := d.seen
  reserved := d.reserved
  buffer := d.buffer
  buffered := d.buffered
  resolvedTx := d.resolvedTx
  mintRefused := d.mintRefused
  atomic := d.atomic
  pending := d.pending
  depth := d.depth

variable {f} (d : Document σ)

theorem mapContent_advanceClock (zone : Option Nat) (floor : Nat) :
    (d.mapContent f).advanceClock zone floor = (d.advanceClock zone floor).mapContent f := by
  cases zone <;> rfl

theorem mapContent_recordStamp (stamp : Stamp) (n : Nat) :
    (d.mapContent f).recordStamp stamp n = (d.recordStamp stamp n).mapContent f := by
  unfold recordStamp
  dsimp only
  split <;> rfl

theorem mapContent_resolveTx (key : TxKey) :
    (d.mapContent f).resolveTx key = (d.resolveTx key).mapContent f := by
  unfold resolveTx
  by_cases hKey : key ∈ d.resolvedTx
  · rw [if_pos hKey, if_pos (show key ∈ (d.mapContent f).resolvedTx from hKey)]
  · rw [if_neg hKey, if_neg (show key ∉ (d.mapContent f).resolvedTx from hKey)]
    rfl

theorem mapContent_beginAtomic : (d.mapContent f).beginAtomic = d.beginAtomic.mapContent f := by
  unfold beginAtomic
  by_cases hOpen : d.atomic.isSome = true
  · rw [if_pos hOpen]
    exact if_pos hOpen
  · rw [if_neg hOpen]
    exact if_neg hOpen

section Delivery

variable [Folds σ] [Folds τ] (hf : FoldsHom f)

include hf

theorem mapContent_applyKind (target : ElementId) (kind : OpKind) (stamp : Stamp)
    (author : ClientId) :
    (d.mapContent f).applyKind target kind stamp author =
      (d.applyKind target kind stamp author).mapContent f := by
  have hContent : (d.recordStamp stamp (span kind)).content = d.content := by
    unfold recordStamp
    dsimp only
    split <;> rfl
  unfold applyKind
  rw [mapContent_recordStamp]
  change ({ (d.recordStamp stamp (span kind)).mapContent f with
    content := Folds.applyKind (f (d.recordStamp stamp (span kind)).content) target kind stamp author } :
      Document τ) = _
  rw [hf.applyKind]
  rfl

theorem mapContent_applyNow (op : Op) :
    (d.mapContent f).applyNow op = (d.applyNow op).mapContent f := by
  unfold applyNow
  dsimp only
  rw [← mapContent_applyKind _ hf, ← mapContent_advanceClock]
  rfl

theorem mapContent_commitMember (op : Op) :
    (d.mapContent f).commitMember op = (d.commitMember op).mapContent f := by
  have hReady : Folds.ready (d.mapContent f).content op = Folds.ready d.content op := hf.ready _ _
  unfold commitMember
  rw [hReady]
  split
  · rw [← mapContent_applyNow _ hf]
    rfl
  · rfl

theorem mapContent_foldl_commitMember (members : List Op) :
    members.foldl commitMember (d.mapContent f) = (members.foldl commitMember d).mapContent f := by
  induction members generalizing d with
  | nil => rfl
  | cons op members ih =>
    rw [List.foldl_cons, mapContent_commitMember d hf]
    exact ih _

theorem mapContent_commitGroup (key : TxKey) :
    (d.mapContent f).commitGroup key = (d.commitGroup key).mapContent f := by
  unfold commitGroup
  dsimp only
  rw [← mapContent_foldl_commitMember _ hf, ← mapContent_resolveTx]
  rfl

theorem mapContent_drainStep :
    (d.mapContent f).drainStep = d.drainStep.map (mapContent f) := by
  have hFind : (fun op : Op => op.tx.isNone && Folds.ready (d.mapContent f).content op) =
      fun op => op.tx.isNone && Folds.ready d.content op := by
    funext op
    exact congrArg (op.tx.isNone && ·) (hf.ready d.content op)
  have hBuffer : (d.mapContent f).buffer = d.buffer := rfl
  unfold drainStep
  rw [hFind, hBuffer]
  cases d.buffer.find? fun op => op.tx.isNone && Folds.ready d.content op with
  | some op =>
    rw [Option.map_some, ← mapContent_applyNow _ hf]
    rfl
  | none =>
    dsimp only
    by_cases hSplit : (d.disagreeing.any fun key => decide (key ∉ d.resolvedTx)) = true
    · rw [if_pos hSplit]
      exact if_pos hSplit
    · rw [if_neg hSplit]
      refine (if_neg hSplit).trans ?_
      rw [Option.map_map]
      refine congrArg (Option.map · d.complete) ?_
      funext key
      exact mapContent_commitGroup d hf key

theorem mapContent_drainBuffer : (d.mapContent f).drainBuffer = d.drainBuffer.mapContent f := by
  have hLoop : ∀ fuel (d : Document σ),
      drainLoop fuel (d.mapContent f) = (drainLoop fuel d).mapContent f := by
    intro fuel
    induction fuel with
    | zero => exact fun d => rfl
    | succ fuel ih =>
      intro d
      unfold drainLoop
      rw [mapContent_drainStep d hf]
      cases d.drainStep with
      | none => rfl
      | some d' => exact ih d'
  exact hLoop _ d

theorem mapContent_applyDuplicate (op : Op) :
    (d.mapContent f).applyDuplicate op = (d.applyDuplicate op).mapContent f := by
  unfold applyDuplicate
  by_cases hHeld : op.id ∉ d.buffered
  · rw [if_pos hHeld, if_pos (show op.id ∉ (d.mapContent f).buffered from hHeld)]
  · rw [if_neg hHeld, if_neg (show ¬op.id ∉ (d.mapContent f).buffered from hHeld)]
    have hTx : (d.mapContent f).bufferedTx op.id = d.bufferedTx op.id := rfl
    rw [hTx]
    cases op.tx with
    | none => rfl
    | some tx =>
      cases d.bufferedTx op.id with
      | none => rfl
      | some held =>
        dsimp only
        split
        · rfl
        · rw [mapContent_resolveTx, mapContent_resolveTx, mapContent_drainBuffer _ hf]

theorem mapContent_apply (op : Op) : (d.mapContent f).apply op = (d.apply op).mapContent f := by
  have hAdmit : ∀ (d : Document σ) op, (d.mapContent f).accept op = (d.accept op).mapContent f := by
    intro d op
    have hReady : Folds.ready (d.mapContent f).content op = Folds.ready d.content op := hf.ready _ _
    unfold accept
    rw [hReady]
    split
    · rw [mapContent_recordStamp, ← mapContent_drainBuffer _ hf]
      rfl
    · split
      · rw [mapContent_applyNow _ hf, mapContent_drainBuffer _ hf]
      · rw [mapContent_recordStamp]
        rfl
  unfold apply
  by_cases hAdmissible : (!op.isAdmissible) = true
  · rw [if_pos hAdmissible, if_pos hAdmissible]
  rw [if_neg hAdmissible, if_neg hAdmissible]
  by_cases hSeen : op.id ∈ d.seen ∨ op.id ∈ d.buffered
  · rw [if_pos hSeen]
    exact (if_pos hSeen).trans (mapContent_applyDuplicate d hf op)
  · rw [if_neg hSeen]
    refine (if_neg hSeen).trans ?_
    rw [← hAdmit]
    rfl

theorem mapContent_evictPartialTransactions :
    (d.mapContent f).evictPartialTransactions = d.evictPartialTransactions.mapContent f := by
  unfold evictPartialTransactions
  dsimp only
  by_cases hKeys : (d.buffer.filterMap Op.txKey).isEmpty = true
  · rw [if_pos hKeys]
    exact if_pos hKeys
  · rw [if_neg hKeys]
    refine (if_neg hKeys).trans ?_
    rw [← mapContent_drainBuffer _ hf]
    rfl

theorem mapContent_emit (e : Edit) : (d.mapContent f).emit e = (d.emit e).mapContent f := by
  have hFloor : (d.mapContent f).mintFloor e.zone = d.mintFloor e.zone := by
    unfold mintFloor
    cases e.zone <;> rfl
  unfold emit
  by_cases hRefused : d.mintRefused = true
  · rw [if_pos hRefused, if_pos (show (d.mapContent f).mintRefused = true from hRefused)]
  rw [if_neg hRefused, if_neg (show ¬(d.mapContent f).mintRefused = true from hRefused), hFloor]
  have hClient : (d.mapContent f).client = d.client := rfl
  rw [hClient]
  cases mintPosition (d.mintFloor e.zone) (span e.kind) d.client with
  | none => rfl
  | some stamp =>
    dsimp only
    rw [mapContent_advanceClock]
    have hMint : ((d.advanceClock e.zone (stamp.lamport + span e.kind - 1)).mapContent f).mintOpId =
        ((d.advanceClock e.zone (stamp.lamport + span e.kind - 1)).mintOpId.1,
          (d.advanceClock e.zone (stamp.lamport + span e.kind - 1)).mintOpId.2.mapContent f) := rfl
    rw [hMint]
    dsimp only
    have hApply : ∀ d : Document σ,
        (d.mapContent f).applyKind e.target e.kind stamp (d.mapContent f).client =
          (d.applyKind e.target e.kind stamp d.client).mapContent f :=
      fun d => mapContent_applyKind d hf e.target e.kind stamp d.client
    rw [hApply]
    rfl

theorem mapContent_emitAll (edits : List Edit) :
    (d.mapContent f).emitAll edits = (d.emitAll edits).mapContent f := by
  unfold emitAll
  induction edits generalizing d with
  | nil => rfl
  | cons e edits ih =>
    rw [List.foldl_cons, mapContent_emit d hf]
    exact ih _

theorem mapContent_transact (edits : List Edit) :
    (d.mapContent f).transact edits = (d.transact edits).map id (mapContent f) := by
  have hRun : ((d.mapContent f).openTransact.emitAll edits).drainBuffer =
      (d.openTransact.emitAll edits).drainBuffer.mapContent f := by
    rw [← mapContent_drainBuffer _ hf, ← mapContent_emitAll _ hf]
    rfl
  unfold transact
  dsimp only
  rw [hRun]
  generalize (d.openTransact.emitAll edits).drainBuffer = r
  have hAtomic : (r.mapContent f).atomic = r.atomic := rfl
  rw [hAtomic]
  cases r.atomic <;> rfl

variable [TxDigest]

theorem mapContent_commitAtomic :
    (d.mapContent f).commitAtomic = d.commitAtomic.map id (mapContent f) := by
  have hTag : ∀ (d : Document σ) ops,
      (d.mapContent f).tagAtomic ops = (d.tagAtomic ops).map id (mapContent f) := by
    intro d ops
    unfold tagAtomic
    dsimp only
    split
    · rfl
    · refine Prod.ext rfl ?_
      dsimp only [Prod.map]
      rw [← mapContent_drainBuffer _ hf]
      rfl
  unfold commitAtomic
  have hAtomic : (d.mapContent f).atomic = d.atomic := rfl
  rw [hAtomic]
  cases d.atomic with
  | none => rfl
  | some ops =>
    dsimp only
    rw [← hTag]
    rfl

theorem mapContent_undo (isAtomic : Bool) (edits : List Edit) :
    (d.mapContent f).undo isAtomic edits =
      (d.undo isAtomic edits).map (Prod.map id (mapContent f)) := by
  have hOpen : (d.mapContent f).openReplay isAtomic = (d.openReplay isAtomic).mapContent f := by
    unfold openReplay
    cases isAtomic with
    | false => rfl
    | true => exact mapContent_beginAtomic { d with mintRefused := false, pending := [] }
  have hReplay : (d.mapContent f).replay isAtomic edits =
      (d.replay isAtomic edits).map id (mapContent f) := by
    unfold replay
    dsimp only
    rw [hOpen, mapContent_emitAll _ hf, mapContent_drainBuffer _ hf]
    generalize ((d.openReplay isAtomic).emitAll edits).drainBuffer = r
    cases isAtomic with
    | false => rfl
    | true =>
      let closed : Document σ := { r with pending := [], atomic := some (r.atomic.getD [] ++ r.pending) }
      exact mapContent_commitAtomic closed hf
  unfold undo
  have hRecording : (d.mapContent f).recordingIntention = d.recordingIntention := rfl
  rw [hRecording]
  split
  · rfl
  · rw [hReplay]
    rfl

end Delivery

end Document

end CrdtSync
