import CrdtSync.Core.Undo

/-!
# A refused mint

A refused edit changes nothing but the latch, and the latch refuses every later edit of the same
intention. What the intention emitted before the refusal stays applied and is handed out as if the
intention had ended there; an atomic transaction is no exception.
-/

namespace CrdtSync

namespace Document

section Latch

variable {σ : Type}

/-- The document with its mint refused. -/
def latched (d : Document σ) : Document σ := { d with mintRefused := true }

theorem latched_of_mintRefused {d : Document σ} (h : d.mintRefused = true) : d.latched = d := by
  unfold latched
  rw [← h]

theorem emitted_latched (d : Document σ) (e : Edit) : d.latched.emitted e = none := by
  unfold emitted latched
  rw [if_pos rfl]

theorem advanceClock_latched (d : Document σ) (zone : Option Nat) (floor : Nat) :
    d.latched.advanceClock zone floor = (d.advanceClock zone floor).latched := by
  cases zone <;> rfl

theorem recordStamp_latched (d : Document σ) (stamp : Stamp) (n : Nat) :
    d.latched.recordStamp stamp n = (d.recordStamp stamp n).latched := by
  unfold recordStamp
  dsimp only
  split <;> rfl

theorem resolveTx_latched (d : Document σ) (key : TxKey) :
    d.latched.resolveTx key = (d.resolveTx key).latched := by
  unfold resolveTx
  by_cases hKey : key ∈ d.resolvedTx
  · rw [if_pos hKey]
    exact if_pos hKey
  · rw [if_neg hKey]
    exact if_neg hKey

variable [Folds σ]

theorem applyNow_latched (d : Document σ) (op : Op) :
    d.latched.applyNow op = (d.applyNow op).latched := by
  have hSeen : ({ d.latched with seen := insert op.id d.latched.seen } : Document σ) =
      ({ d with seen := insert op.id d.seen } : Document σ).latched := rfl
  unfold applyNow
  dsimp only
  rw [hSeen, advanceClock_latched]
  unfold applyKind
  dsimp only
  rw [recordStamp_latched]
  rfl

theorem commitMember_latched (d : Document σ) (op : Op) :
    d.latched.commitMember op = (d.commitMember op).latched := by
  unfold commitMember
  by_cases hReady : Folds.ready d.content op = true
  · rw [if_pos hReady, ← applyNow_latched]
    exact if_pos hReady
  · rw [if_neg hReady]
    exact if_neg hReady

theorem commitGroup_latched (d : Document σ) (key : TxKey) :
    d.latched.commitGroup key = (d.commitGroup key).latched := by
  have hFold (members : List Op) (d : Document σ) :
      members.foldl commitMember d.latched = (members.foldl commitMember d).latched := by
    induction members generalizing d with
    | nil => rfl
    | cons op members ih =>
      rw [List.foldl_cons, List.foldl_cons, commitMember_latched]
      exact ih _
  unfold commitGroup
  rw [← hFold, ← resolveTx_latched]
  rfl

theorem drainStep_latched (d : Document σ) :
    d.latched.drainStep = d.drainStep.map latched := by
  unfold drainStep
  cases hFind : d.buffer.find? fun op => op.tx.isNone && Folds.ready d.content op with
  | some op =>
    have hHeld : d.latched.buffer.find? (fun op => op.tx.isNone && Folds.ready d.latched.content op)
      = some op := hFind
    rw [hHeld]
    dsimp only
    rw [Option.map_some, ← applyNow_latched]
    rfl
  | none =>
    have hHeld : d.latched.buffer.find? (fun op => op.tx.isNone && Folds.ready d.latched.content op)
      = none := hFind
    rw [hHeld]
    dsimp only
    by_cases hSplit : (d.disagreeing.any fun key => key ∉ d.resolvedTx) = true
    · rw [if_pos hSplit]
      exact if_pos hSplit
    · rw [if_neg hSplit]
      refine (if_neg hSplit).trans ?_
      change d.complete.map d.latched.commitGroup = _
      rw [Option.map_map]
      exact congrArg (fun f => d.complete.map f) (funext fun key => commitGroup_latched d key)

theorem drainBuffer_latched (d : Document σ) : d.latched.drainBuffer = d.drainBuffer.latched := by
  have hLoop (fuel : Nat) (d : Document σ) : drainLoop fuel d.latched = (drainLoop fuel d).latched := by
    induction fuel generalizing d with
    | zero => rfl
    | succ fuel ih =>
      unfold drainLoop
      rw [drainStep_latched]
      cases d.drainStep with
      | none => rfl
      | some d' => exact ih d'
  exact hLoop _ d

theorem tagAtomic_latched [TxDigest] (d : Document σ) (ops : List Op) :
    d.latched.tagAtomic ops = ((d.tagAtomic ops).1, (d.tagAtomic ops).2.latched) := by
  unfold tagAtomic
  dsimp only
  split
  · rfl
  · rw [← drainBuffer_latched]
    rfl

theorem commitAtomic_latched [TxDigest] (d : Document σ) :
    d.latched.commitAtomic = (d.commitAtomic.1, d.commitAtomic.2.latched) := by
  unfold commitAtomic
  have hAtomic : d.latched.atomic = d.atomic := rfl
  rw [hAtomic]
  cases d.atomic with
  | none => rfl
  | some ops => exact tagAtomic_latched { d with atomic := none } ops

end Latch

end Document

namespace Tracked

section Refusals

/-- The replica with its mint refused. -/
def latched (r : Tracked) : Tracked := { r with doc := r.doc.latched }

theorem latched_of_mintRefused {r : Tracked} (h : r.doc.mintRefused = true) : r.latched = r := by
  unfold latched
  rw [Document.latched_of_mintRefused h]

variable [IdBytes] [Zones] {r : Tracked}

theorem emitStamped_of_refused {target : ElementId} {kind : OpKind}
    (h : r.doc.emitted (r.edit target kind) = none) :
    r.emitStamped target kind = (none, r.latched) := by
  unfold emitStamped
  dsimp only
  rw [h, Document.emit_of_emitted_eq_none h]
  rfl

theorem emitStamped_latched (r : Tracked) (target : ElementId) (kind : OpKind) :
    r.latched.emitStamped target kind = (none, r.latched) :=
  emitStamped_of_refused (Document.emitted_latched _ _)

@[simp] theorem emit_latched (r : Tracked) (target : ElementId) (kind : OpKind) :
    r.latched.emit target kind = r.latched := by
  rw [emit, emitStamped_latched]

theorem emitAll_latched (r : Tracked) (edits : List (ElementId × OpKind)) :
    r.latched.emitAll edits = r.latched := by
  unfold emitAll
  induction edits with
  | nil => rfl
  | cons e edits ih => rwa [List.foldl_cons, emit_latched]

/-! ### Revivals -/

theorem reviveNode_latched (r : Tracked) (list : ElementId) (anchor : Anchor) (node : Snap) :
    r.latched.reviveNode list anchor node = (none, r.latched) := by
  unfold reviveNode
  split
  · rw [emitStamped_latched]
  · rw [emitStamped_latched]
  · rfl

theorem reviveRanged_latched (r : Tracked) (start stop : RangeAnchor) (name : Option Bytes)
    (payload : Snap) : r.latched.reviveRanged start stop name payload = (none, r.latched) := by
  unfold reviveRanged
  dsimp only
  split
  · rfl
  · rw [emitStamped_latched]

theorem emitInverse_latched (r : Tracked) (step : Inverse) : r.latched.emitInverse step = r.latched := by
  cases step with
  | op target kind => exact emit_latched ..
  | regrant target subject grant effect scope grantor was =>
    simp only [emitInverse, emitStamped_latched]
  | reviveItem list anchor value was => simp only [emitInverse, emitStamped_latched]
  | reviveRun text anchor s was => simp only [emitInverse, emitStamped_latched]
  | reviveNode list anchor node was wasNode => simp only [emitInverse, reviveNode_latched]
  | ranged start stop name payload was => simp only [emitInverse, reviveRanged_latched]

theorem reinstate_latched (r : Tracked) (chain : List (ElementId × OpKind)) :
    r.latched.reinstate chain = r.latched := by
  induction chain with
  | nil => rfl
  | cons link chain ih =>
    unfold reinstate
    split
    · rw [emit_latched, ih]
    · rfl

theorem replayStep_latched (installers : Registry (ElementId × OpKind)) (r : Tracked) (step : Inverse) :
    replayStep installers r.latched step = r.latched := by
  unfold replayStep
  dsimp only
  rw [reinstate_latched, ite_self]
  split
  · exact emitInverse_latched r step
  · rfl

/-- Once a step of a replay has been refused, the rest of its plan has no effect. -/
theorem foldl_replayStep_latched (installers : Registry (ElementId × OpKind)) (r : Tracked)
    (steps : List Inverse) : steps.foldl (replayStep installers) r.latched = r.latched := by
  induction steps with
  | nil => rfl
  | cons step steps ih => rwa [List.foldl_cons, replayStep_latched]

/-! ### Intentions -/

omit [Zones] in
theorem closeTransact_latched (r : Tracked) :
    r.latched.closeTransact = (r.closeTransact.1, r.closeTransact.2.latched) := by
  have hDrained : r.latched.doc.drainBuffer = r.doc.drainBuffer.latched :=
    Document.drainBuffer_latched r.doc
  unfold closeTransact
  rw [hDrained]
  generalize r.doc.drainBuffer = d
  obtain ⟨s, refused, atomic, pending, depth⟩ := d
  cases atomic <;> rfl

theorem transact_of_refused {before after : List (ElementId × OpKind)} {target : ElementId}
    {kind : OpKind} (h : (r.openTransact.emitAll before).doc.emitted
      ((r.openTransact.emitAll before).edit target kind) = none) :
    r.transact (before ++ (target, kind) :: after) =
      ((r.transact before).1, (r.transact before).2.latched) := by
  have hRest : r.openTransact.emitAll (before ++ (target, kind) :: after) =
      (r.openTransact.emitAll before).latched := by
    have hEmit : (r.openTransact.emitAll before).emit target kind =
        (r.openTransact.emitAll before).latched := by
      rw [emit, emitStamped_of_refused h]
    have hAfter := emitAll_latched (r.openTransact.emitAll before) after
    rw [← hEmit] at hAfter ⊢
    unfold emitAll at hAfter ⊢
    rwa [List.foldl_append, List.foldl_cons]
  unfold transact
  rw [hRest, closeTransact_latched]

variable [TxDigest]

omit [Zones] in
theorem commitAtomic_latched (r : Tracked) :
    r.latched.commitAtomic = (r.commitAtomic.1, r.commitAtomic.2.latched) := by
  have hCommit : r.latched.doc.commitAtomic =
      (r.doc.commitAtomic.1, r.doc.commitAtomic.2.latched) := Document.commitAtomic_latched r.doc
  unfold commitAtomic
  rw [hCommit]
  change (if r.doc.atomic.isNone = true then _ else _) = _
  split <;> rfl

/-- So is an atomic transaction: what it emitted stays applied and is committed. -/
theorem atomicTransact_of_refused {before after : List (ElementId × OpKind)} {target : ElementId}
    {kind : OpKind} (h : (r.beginAtomic.openTransact.emitAll before).doc.emitted
      ((r.beginAtomic.openTransact.emitAll before).edit target kind) = none) :
    r.atomicTransact (before ++ (target, kind) :: after) =
      ((r.atomicTransact before).1, (r.atomicTransact before).2.latched) := by
  unfold atomicTransact
  rw [transact_of_refused h, commitAtomic_latched]

/-- A gesture with its edits left out. -/
def Gesture.inert : Gesture → Gesture
  | .transact _ => .transact []
  | g => g

/-- An intention is open before every gesture of the run. -/
def StaysOpen (r : Tracked) : List Gesture → Prop
  | [] => True
  | g :: gs => r.doc.recordingIntention = true ∧ (r.act g).2.StaysOpen gs

/-- While the intention stays open, a latched replica makes no edit and stays latched. -/
theorem act_of_mintRefused (hOpen : r.doc.recordingIntention = true) (h : r.doc.mintRefused = true)
    (g : Gesture) : r.act g = r.act g.inert ∧ (r.act g).2.doc.mintRefused = true := by
  cases g with
  | transact edits =>
    have hKept : r.openTransact.latched = r.openTransact := by
      apply latched_of_mintRefused
      change (r.doc.mintRefused && r.doc.recordingIntention) = true
      rw [h, hOpen]
      rfl
    have hNone (edits : List (ElementId × OpKind)) :
        r.transact edits = r.openTransact.latched.closeTransact := by
      unfold transact
      rw [← emitAll_latched _ edits, hKept]
    refine ⟨(hNone edits).trans (hNone []).symm, ?_⟩
    change (r.transact edits).2.doc.mintRefused = true
    rw [hNone, closeTransact_latched]
    rfl
  | setUndoOrigin origin => exact ⟨rfl, h⟩
  | clearUndoOrigin => exact ⟨rfl, h⟩
  | beginIntention =>
    refine ⟨rfl, ?_⟩
    change (r.doc.mintRefused && r.doc.recordingIntention) = true
    rw [h, hOpen]
    rfl
  | endIntention => exact ⟨rfl, h⟩
  | beginAtomic =>
    refine ⟨rfl, ?_⟩
    change r.doc.beginAtomic.mintRefused = true
    unfold Document.beginAtomic
    split
    · exact h
    · change (r.doc.mintRefused && r.doc.recordingIntention) = true
      rw [h, hOpen]
      rfl
  | commitAtomic =>
    refine ⟨rfl, ?_⟩
    change r.commitAtomic.2.doc.mintRefused = true
    rw [← latched_of_mintRefused h, commitAtomic_latched]
    rfl
  | undo origin =>
    refine ⟨rfl, ?_⟩
    change ((r.undo origin).getD ([], r)).2.doc.mintRefused = true
    unfold undo
    rw [if_pos hOpen]
    exact h
  | redo origin =>
    refine ⟨rfl, ?_⟩
    change ((r.redo origin).getD ([], r)).2.doc.mintRefused = true
    unfold redo
    rw [if_pos hOpen]
    exact h
  | apply op => exact ⟨rfl, (Document.settles_apply r.doc op).mintRefused.trans h⟩
  | evictPartialTransactions =>
    exact ⟨rfl, (Document.settles_evictPartialTransactions r.doc).mintRefused.trans h⟩

/-- The rest of a refused intention runs as if none of its edits were made. -/
theorem run_of_mintRefused {gs : List Gesture} (h : r.doc.mintRefused = true) (hOpen : r.StaysOpen gs) :
    r.run gs = r.run (gs.map Gesture.inert) ∧ (r.run gs).2.doc.mintRefused = true := by
  induction gs generalizing r with
  | nil => exact ⟨rfl, h⟩
  | cons g gs ih =>
    obtain ⟨hSame, hLatched⟩ := act_of_mintRefused hOpen.1 h g
    obtain ⟨hRest, hEnd⟩ := ih hLatched hOpen.2
    refine ⟨?_, hEnd⟩
    unfold run
    rw [List.map_cons]
    dsimp only
    rw [← hSame, hRest]

/-! ### What is handed out -/

/-- The ops a run of edits emits. -/
def authored (r : Tracked) : List (ElementId × OpKind) → List Op
  | [] => []
  | (target, kind) :: edits =>
    (r.doc.emitted (r.edit target kind)).toList ++ (r.emit target kind).authored edits

omit [TxDigest] in
theorem emit_doc (r : Tracked) (target : ElementId) (kind : OpKind) :
    (r.emit target kind).doc = r.doc.emit (r.edit target kind) := by
  unfold emit emitStamped
  dsimp only
  cases r.doc.emitted (r.edit target kind) with
  | none => rfl
  | some op => rfl

omit [TxDigest] in
theorem emitAll_doc (r : Tracked) (edits : List (ElementId × OpKind)) :
    (r.emitAll edits).doc.pending = r.doc.pending ++ r.authored edits ∧
      (r.emitAll edits).doc.atomic = r.doc.atomic := by
  induction edits generalizing r with
  | nil => exact ⟨(List.append_nil _).symm, rfl⟩
  | cons e edits ih =>
    obtain ⟨hPending, hAtomic⟩ := ih (r.emit e.1 e.2)
    rw [emit_doc, Document.emit_pending, List.append_assoc] at hPending
    rw [emit_doc, Document.emit_atomic] at hAtomic
    exact ⟨hPending, hAtomic⟩

omit [TxDigest] in
theorem transact_authored (r : Tracked) (edits : List (ElementId × OpKind)) :
    (r.doc.atomic = none → (r.transact edits).1 = r.openTransact.authored edits) ∧
    ∀ acc, r.doc.atomic = some acc →
      (r.transact edits).2.doc.atomic = some (acc ++ r.openTransact.authored edits) := by
  obtain ⟨hPending, hAtomic⟩ := emitAll_doc r.openTransact edits
  have hDrain := Document.settles_drainBuffer (r.openTransact.emitAll edits).doc
  have hOps : (r.openTransact.emitAll edits).doc.drainBuffer.pending = r.openTransact.authored edits :=
    hDrain.pending.trans hPending
  have hGroup : (r.openTransact.emitAll edits).doc.drainBuffer.atomic = r.doc.atomic :=
    hDrain.atomic.trans hAtomic
  unfold transact closeTransact
  dsimp only
  rw [hOps, hGroup]
  constructor
  · intro hNone
    rw [hNone]
  · intro acc hSome
    rw [hSome]

omit [IdBytes] [Zones] in
/-- A group is the ops it was made of, tagged. -/
theorem map_untagged_tagAtomic {σ : Type} [Folds σ] (d : Document σ) (ops : List Op) :
    (d.tagAtomic ops).1.map Op.untagged = ops.map Op.untagged := by
  unfold Document.tagAtomic
  dsimp only
  split
  · rfl
  · rw [List.map_map]
    exact List.map_congr_left fun op _ => rfl

theorem atomicTransact_authored (hClosed : r.doc.atomic = none) (edits : List (ElementId × OpKind)) :
    (r.atomicTransact edits).1.map Op.untagged =
      (r.beginAtomic.openTransact.authored edits).map Op.untagged := by
  have hBegun : r.beginAtomic.doc.atomic = some [] := by
    unfold beginAtomic Document.beginAtomic
    rw [hClosed]
    rfl
  have hGroup := (transact_authored r.beginAtomic edits).2 [] hBegun
  unfold atomicTransact commitAtomic
  rw [hGroup]
  change ((r.beginAtomic.transact edits).2.doc.commitAtomic).1.map Op.untagged = _
  unfold Document.commitAtomic
  rw [hGroup]
  exact map_untagged_tagAtomic _ _

/-- A refused edit changes nothing but the latch, no later edit of the intention has any effect, and
what was emitted before the refusal is what a transact or an atomic transaction hands out, in the
state it would have left by ending there. -/
theorem mint_refusal_latches (r : Tracked) :
    (∀ target kind, r.doc.emitted (r.edit target kind) = none →
      r.emitStamped target kind = (none, r.latched)) ∧
    (∀ before target kind after, (r.openTransact.emitAll before).doc.emitted
        ((r.openTransact.emitAll before).edit target kind) = none →
      r.transact (before ++ (target, kind) :: after) =
          ((r.transact before).1, (r.transact before).2.latched) ∧
        (r.doc.atomic = none → (r.transact before).1 = r.openTransact.authored before)) ∧
    (∀ before target kind after, r.doc.atomic = none →
      (r.beginAtomic.openTransact.emitAll before).doc.emitted
        ((r.beginAtomic.openTransact.emitAll before).edit target kind) = none →
      r.atomicTransact (before ++ (target, kind) :: after) =
          ((r.atomicTransact before).1, (r.atomicTransact before).2.latched) ∧
        (r.atomicTransact before).1.map Op.untagged =
          (r.beginAtomic.openTransact.authored before).map Op.untagged) ∧
    (r.doc.mintRefused = true →
      (∀ gs, r.StaysOpen gs →
        r.run gs = r.run (gs.map Gesture.inert) ∧ (r.run gs).2.doc.mintRefused = true) ∧
      ∀ installers (steps : List Inverse), steps.foldl (replayStep installers) r = r) := by
  refine ⟨fun _ _ => emitStamped_of_refused, fun before target kind after h => ?_,
    fun before target kind after hClosed h => ?_, fun h => ⟨fun gs => run_of_mintRefused h, ?_⟩⟩
  · exact ⟨transact_of_refused h, (transact_authored r before).1⟩
  · exact ⟨atomicTransact_of_refused h, atomicTransact_authored hClosed before⟩
  · intro installers steps
    have hRest := foldl_replayStep_latched installers r steps
    rwa [latched_of_mintRefused h] at hRest

end Refusals

section Examples

local instance latchIdBytes : IdBytes := IdBytes.spelled
local instance latchTxDigest : TxDigest := ⟨List.sum⟩
local instance latchZones : Zones := ⟨fun _ _ _ => none⟩

/-- A recording replica with one id left: an op under its own id took the one before. -/
def nearlySpent : Tracked :=
  ⟨(Document.new ⟨1⟩ Content.new).apply ⟨⟨⟨1⟩, 0⟩, ⟨LAMPORT_STATE_CEILING - 1, ⟨1⟩, 0⟩, ROOT_ID,
    .mapDelete [0], none, none⟩, History.empty.track [1]⟩

/-- An atomic transaction that is refused halfway keeps its first half and sends it. -/
theorem refused_transaction_is_not_rolled_back :
    ¬∀ (r : Tracked) (edits : List (ElementId × OpKind)),
      (r.atomicTransact edits).2.doc.mintRefused = true →
      (r.atomicTransact edits).1 = [] ∧ (r.atomicTransact edits).2.doc.seen = r.doc.seen ∧
        (r.atomicTransact edits).2.history.undo.length = r.history.undo.length := by
  intro h
  have hRefused : (nearlySpent.atomicTransact
      [(ROOT_ID, .mapDelete [1]), (ROOT_ID, .mapDelete [2])]).2.doc.mintRefused = true := by
    decide +kernel
  have hSent : (nearlySpent.atomicTransact
      [(ROOT_ID, .mapDelete [1]), (ROOT_ID, .mapDelete [2])]).1 ≠ [] := by decide +kernel
  exact hSent (h nearlySpent _ hRefused).1

theorem mint_refusal_latches_nearlySpent :
    nearlySpent.transact [(ROOT_ID, .mapDelete [1]), (ROOT_ID, .mapDelete [2]), (ROOT_ID, .mapDelete [3])] =
      ((nearlySpent.transact [(ROOT_ID, .mapDelete [1])]).1,
        (nearlySpent.transact [(ROOT_ID, .mapDelete [1])]).2.latched) ∧
    (nearlySpent.transact [(ROOT_ID, .mapDelete [1])]).1.length = 1 :=
  ⟨((mint_refusal_latches nearlySpent).2.1 [(ROOT_ID, .mapDelete [1])] ROOT_ID (.mapDelete [2])
    [(ROOT_ID, .mapDelete [3])] (by decide +kernel)).1, by decide +kernel⟩

end Examples

end Tracked

end CrdtSync
