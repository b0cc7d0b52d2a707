import CrdtSync.Core.DocumentFrame

/-!
# The ops a document holds

An op a document has taken in is applied or waits in the buffer, and no later
delivery, drain or group resolution lets go of it.
-/

namespace CrdtSync

namespace Document

variable {σ : Type} {d d' : Document σ}

/-- The ids of the ops applied or held. -/
def known (d : Document σ) : Finset OpId := d.seen ∪ d.buffered ∪ (d.buffer.map Op.id).toFinset

theorem mem_known {d : Document σ} {id : OpId} :
    id ∈ d.known ↔ id ∈ d.seen ∨ id ∈ d.buffered ∨ id ∈ d.buffer.map Op.id := by
  simp only [known, Finset.mem_union, List.mem_toFinset, or_assoc]

@[simp]
theorem known_advanceClock (d : Document σ) (zone : Option Nat) (floor : Nat) :
    (d.advanceClock zone floor).known = d.known := by
  cases zone <;> rfl

@[simp]
theorem known_recordStamp (d : Document σ) (stamp : Stamp) (n : Nat) :
    (d.recordStamp stamp n).known = d.known := by
  unfold recordStamp
  dsimp only
  split <;> rfl

@[simp]
theorem known_hold (d : Document σ) (op : Op) : (d.hold op).known = insert op.id d.known := by
  ext id
  simp only [mem_known, hold, Finset.mem_insert, List.map_append, List.mem_append,
    List.map_cons, List.map_nil, List.mem_singleton]
  tauto

@[simp]
theorem destray_id (d : Document σ) (op : Op) : (d.destray op).id = op.id := by
  unfold destray
  split
  · split <;> rfl
  · rfl

@[simp]
theorem known_untagResolved (d : Document σ) : d.untagResolved.known = d.known := by
  have hIds : d.untagResolved.buffer.map Op.id = d.buffer.map Op.id := by
    simp [untagResolved, Function.comp_def]
  unfold known
  rw [hIds]
  rfl

@[simp]
theorem known_resolveTx (d : Document σ) (key : TxKey) : (d.resolveTx key).known = d.known := by
  unfold resolveTx
  split
  · rfl
  · exact known_untagResolved _

variable [Folds σ]

@[simp]
theorem known_applyKind (d : Document σ) (target : ElementId) (kind : OpKind) (stamp : Stamp)
    (author : ClientId) : (d.applyKind target kind stamp author).known = d.known :=
  known_recordStamp ..

@[simp]
theorem known_applyNow (d : Document σ) (op : Op) : (d.applyNow op).known = insert op.id d.known := by
  unfold applyNow
  rw [known_applyKind, known_advanceClock]
  ext id
  simp only [mem_known, Finset.mem_insert, or_assoc]

theorem known_commitMember (d : Document σ) (op : Op) :
    (d.commitMember op).known = insert op.id d.known := by
  unfold commitMember
  split
  · rw [known_applyNow]
    ext id
    simp only [mem_known, Finset.mem_insert, Finset.mem_erase]
    tauto
  · exact known_hold ..

theorem known_foldl_commitMember (members : List Op) (d : Document σ) :
    (members.foldl commitMember d).known = d.known ∪ (members.map Op.id).toFinset := by
  induction members generalizing d with
  | nil => simp
  | cons op members ih =>
    rw [List.foldl_cons, ih, known_commitMember]
    ext id
    simp only [Finset.mem_union, Finset.mem_insert, List.map_cons, List.toFinset_cons]
    tauto

/-- The members leave the buffer and come back applied or held. -/
theorem known_commitGroup (d : Document σ) (key : TxKey) : (d.commitGroup key).known = d.known := by
  unfold commitGroup
  dsimp only
  rw [known_foldl_commitMember, known_resolveTx]
  ext id
  simp only [mem_known, Finset.mem_union, List.mem_toFinset, List.mem_map,
    List.mem_insertionSort, List.mem_reverse, bucket, List.mem_filter, decide_eq_true_eq]
  constructor
  · rintro ((h | h | ⟨op, ⟨hOp, -⟩, h⟩) | ⟨op, ⟨hOp, -⟩, h⟩)
    · exact .inl h
    · exact .inr (.inl h)
    · exact .inr (.inr ⟨op, hOp, h⟩)
    · exact .inr (.inr ⟨op, hOp, h⟩)
  · rintro (h | h | ⟨op, hOp, h⟩)
    · exact .inl (.inl h)
    · exact .inl (.inr (.inl h))
    · rcases Decidable.em (op.txKey = some key) with hKey | hKey
      · exact .inr ⟨op, ⟨hOp, hKey⟩, h⟩
      · exact .inl (.inr (.inr ⟨op, ⟨hOp, hKey⟩, h⟩))

/-- The three moves of the drain. -/
theorem drainStep_cases (h : d.drainStep = some d') :
    (∃ op rest, op ∈ d.buffer ∧ op.tx = none ∧ Folds.ready d.content op ∧
      (op :: rest).Perm d.buffer ∧
      d' = ({ d with buffer := rest, buffered := d.buffered.erase op.id } : Document σ).applyNow op) ∨
    ((∃ key ∈ d.disagreeing, key ∉ d.resolvedTx) ∧
      d' = ({ d with resolvedTx := d.resolvedTx ∪ d.disagreeing.toFinset } :
        Document σ).untagResolved) ∨
    (∃ key, d.complete = some key ∧ d' = d.commitGroup key) := by
  unfold drainStep at h
  cases hFind : d.buffer.find? fun op => op.tx.isNone && Folds.ready d.content op with
  | some op =>
    rw [hFind] at h
    obtain rfl := Option.some.inj h
    have hOp : op ∈ d.buffer := List.mem_of_find?_eq_some hFind
    have hReady := List.find?_some hFind
    rw [Bool.and_eq_true, Option.isNone_iff_eq_none] at hReady
    refine .inl ⟨op, _, hOp, hReady.1, hReady.2, ?_, rfl⟩
    obtain ⟨hThis, before, after, hBuffer, hBefore⟩ := List.find?_eq_some_iff_append.mp hFind
    have hSkip : ∀ other ∈ before, ¬(other.tx.isNone && Folds.ready d.content other) = true := by
      intro other hOther hTrue
      have hFalse := hBefore other hOther
      rw [hTrue] at hFalse
      cases hFalse
    have hErase : (d.buffer.eraseP fun op => op.tx.isNone && Folds.ready d.content op) =
        before ++ after := by
      rw [hBuffer, List.eraseP_append_right _ hSkip]
      simp only [List.eraseP_cons, hThis, cond_true]
    rw [hErase, hBuffer]
    exact List.perm_middle.symm
  | none =>
    rw [hFind] at h
    dsimp only at h
    split at h
    next hSplit =>
      obtain rfl := Option.some.inj h
      obtain ⟨key, hKey, hOpen⟩ := List.any_eq_true.mp hSplit
      exact .inr (.inl ⟨⟨key, hKey, of_decide_eq_true hOpen⟩, rfl⟩)
    next =>
      obtain ⟨key, hKey, rfl⟩ := Option.map_eq_some_iff.mp h
      exact .inr (.inr ⟨key, hKey, rfl⟩)

theorem known_drainStep (h : d.drainStep = some d') : d'.known = d.known := by
  obtain ⟨op, rest, hOp, -, -, hPerm, rfl⟩ | ⟨-, rfl⟩ | ⟨key, -, rfl⟩ := drainStep_cases h
  · rw [known_applyNow]
    ext id
    have hIds : id ∈ d.buffer.map Op.id ↔ id = op.id ∨ id ∈ rest.map Op.id := by
      rw [← (hPerm.map Op.id).mem_iff, List.map_cons, List.mem_cons]
    rw [mem_known, hIds]
    simp only [mem_known, Finset.mem_insert, Finset.mem_erase]
    tauto
  · exact known_untagResolved _
  · exact known_commitGroup d key

@[simp]
theorem known_drainBuffer (d : Document σ) : d.drainBuffer.known = d.known := by
  have hLoop : ∀ fuel (d : Document σ), (drainLoop fuel d).known = d.known := by
    intro fuel
    induction fuel with
    | zero => exact fun d => rfl
    | succ fuel ih =>
      intro d
      unfold drainLoop
      cases hStep : d.drainStep with
      | none => rfl
      | some d' => exact (ih d').trans (known_drainStep hStep)
  exact hLoop _ d

theorem known_applyDuplicate (d : Document σ) (op : Op) : (d.applyDuplicate op).known = d.known := by
  unfold applyDuplicate
  split
  · rfl
  · split
    · split
      · rfl
      · simp
    · rfl

theorem known_accept (d : Document σ) (op : Op) : (d.accept op).known = insert op.id d.known := by
  unfold accept
  split
  · simp
  · split <;> simp

/-- An admissible op is taken in, and nothing else is. -/
theorem known_apply (d : Document σ) {op : Op} (hOp : op.isAdmissible) :
    (d.apply op).known = insert op.id d.known := by
  unfold apply
  rw [if_neg (by simp [hOp])]
  by_cases hHeld : op.id ∈ d.seen ∨ op.id ∈ d.buffered
  · rw [if_pos hHeld, known_applyDuplicate, Finset.insert_eq_of_mem]
    rw [mem_known]
    tauto
  · rw [if_neg hHeld, known_accept, destray_id]
    rfl

theorem known_foldl_apply {ops : List Op} (hOps : ∀ op ∈ ops, op.isAdmissible) (d : Document σ) :
    (ops.foldl apply d).known = d.known ∪ (ops.map Op.id).toFinset := by
  induction ops generalizing d with
  | nil => simp
  | cons op ops ih =>
    rw [List.foldl_cons, ih (fun other hOther => hOps other (List.mem_cons_of_mem _ hOther)),
      known_apply d (hOps op List.mem_cons_self)]
    ext id
    simp only [Finset.mem_union, Finset.mem_insert, List.map_cons, List.toFinset_cons]
    tauto

end Document

end CrdtSync
