import Mathlib.Algebra.Order.BigOperators.Group.List
import Mathlib.Algebra.Order.Ring.Nat
import Mathlib.Algebra.Group.Action.Defs
import CrdtSync.Core.Known

/-!
# Groups waiting in the buffer

The drain ends with no complete group left in the buffer. A member therefore waits
exactly as long as the bucket it joined is short, and a frame that brings the rest of
every group it opens leaves nothing waiting.
-/

namespace CrdtSync

namespace Document

variable {σ : Type} {d d' d'' : Document σ}

/-! ### What an operation does to the buffer -/

@[simp]
theorem buffer_advanceClock (d : Document σ) (zone : Option Nat) (floor : Nat) :
    (d.advanceClock zone floor).buffer = d.buffer := by
  cases zone <;> rfl

@[simp]
theorem resolvedTx_advanceClock (d : Document σ) (zone : Option Nat) (floor : Nat) :
    (d.advanceClock zone floor).resolvedTx = d.resolvedTx := by
  cases zone <;> rfl

@[simp]
theorem buffer_recordStamp (d : Document σ) (stamp : Stamp) (n : Nat) :
    (d.recordStamp stamp n).buffer = d.buffer := by
  unfold recordStamp
  dsimp only
  split <;> rfl

@[simp]
theorem resolvedTx_recordStamp (d : Document σ) (stamp : Stamp) (n : Nat) :
    (d.recordStamp stamp n).resolvedTx = d.resolvedTx := by
  unfold recordStamp
  dsimp only
  split <;> rfl

@[simp]
theorem content_advanceClock (d : Document σ) (zone : Option Nat) (floor : Nat) :
    (d.advanceClock zone floor).content = d.content := by
  cases zone <;> rfl

@[simp]
theorem content_recordStamp (d : Document σ) (stamp : Stamp) (n : Nat) :
    (d.recordStamp stamp n).content = d.content := by
  unfold recordStamp
  dsimp only
  split <;> rfl

/-- Every held op's id is on record. -/
def Tracked (d : Document σ) : Prop := ∀ op ∈ d.buffer, op.id ∈ d.seen ∨ op.id ∈ d.buffered

theorem Tracked.mem_known (h : d.Tracked) {id : OpId} :
    id ∈ d.known ↔ id ∈ d.seen ∨ id ∈ d.buffered := by
  rw [Document.mem_known]
  constructor
  · rintro (hSeen | hBuffered | hHeld)
    · exact .inl hSeen
    · exact .inr hBuffered
    · obtain ⟨op, hOp, rfl⟩ := List.mem_map.mp hHeld
      exact h op hOp
  · rintro (hSeen | hBuffered)
    · exact .inl hSeen
    · exact .inr (.inl hBuffered)

theorem txKey_eq_some {op : Op} {key : TxKey} :
    op.txKey = some key ↔ ∃ tx, op.tx = some tx ∧ (op.id.client, tx.id) = key := by
  rw [Op.txKey, Option.map_eq_some_iff]

theorem txKey_eq_none {op : Op} : op.txKey = none ↔ op.tx = none := by
  rw [Op.txKey, Option.map_eq_none_iff]

theorem txKey_destray {op : Op} {key : TxKey} :
    (d.destray op).txKey = some key ↔ op.txKey = some key ∧ key ∉ d.resolvedTx := by
  unfold destray
  cases hKey : op.txKey with
  | none => simp [hKey]
  | some other =>
    dsimp only
    split
    next hResolved =>
      constructor
      · intro h
        cases h
      · rintro ⟨h, hOpen⟩
        exact absurd (Option.some.inj h ▸ hResolved) hOpen
    next hOpen =>
      rw [hKey]
      constructor
      · intro h
        exact ⟨h, Option.some.inj h ▸ hOpen⟩
      · rintro ⟨h, -⟩
        exact h

theorem destray_of_open {op : Op} {key : TxKey} (hKey : op.txKey = some key)
    (hOpen : key ∉ d.resolvedTx) : d.destray op = op := by
  unfold destray
  rw [hKey]
  exact if_neg hOpen

theorem mem_bucket {op : Op} {key : TxKey} :
    op ∈ d.bucket key ↔ op ∈ d.buffer ∧ op.txKey = some key := by
  rw [bucket, List.mem_filter, decide_eq_true_eq]

theorem bucket_untagResolved (d : Document σ) (key : TxKey) :
    d.untagResolved.bucket key = if key ∈ d.resolvedTx then [] else d.bucket key := by
  unfold bucket untagResolved
  dsimp only
  rw [List.filter_map]
  split
  next hResolved =>
    rw [List.map_eq_nil_iff, List.filter_eq_nil_iff]
    intro op _ h
    exact (txKey_destray.mp (of_decide_eq_true h)).2 hResolved
  next hOpen =>
    have hSame : (d.buffer.filter ((fun op => decide (op.txKey = some key)) ∘ d.destray)) =
        d.buffer.filter fun op => decide (op.txKey = some key) := by
      apply List.filter_congr
      intro op _
      apply decide_eq_decide.mpr
      rw [txKey_destray]
      exact and_iff_left hOpen
    rw [hSame]
    refine (List.map_congr_left fun op hOp => ?_).trans (List.map_id _)
    exact destray_of_open (of_decide_eq_true (List.mem_filter.mp hOp).2) hOpen

theorem bucket_resolveTx (d : Document σ) (key other : TxKey) :
    (d.resolveTx key).bucket other = d.bucket other ∨
      other ∈ (d.resolveTx key).resolvedTx ∧ (d.resolveTx key).bucket other = [] := by
  unfold resolveTx
  split
  · exact .inl rfl
  · rw [bucket_untagResolved]
    split
    next hResolved => exact .inr ⟨hResolved, rfl⟩
    next => exact .inl rfl

theorem mem_resolvedTx_resolveTx (d : Document σ) (key other : TxKey) :
    other ∈ (d.resolveTx key).resolvedTx ↔ other = key ∨ other ∈ d.resolvedTx := by
  unfold resolveTx
  split
  next hKey =>
    constructor
    · exact .inr
    · rintro (rfl | h)
      · exact hKey
      · exact h
  next => exact Finset.mem_insert

variable [Folds σ]

@[simp]
theorem buffer_applyNow (d : Document σ) (op : Op) : (d.applyNow op).buffer = d.buffer := by
  simp [applyNow, applyKind]

@[simp]
theorem resolvedTx_applyNow (d : Document σ) (op : Op) :
    (d.applyNow op).resolvedTx = d.resolvedTx := by
  simp [applyNow, applyKind]

@[simp]
theorem bucket_applyNow (d : Document σ) (op : Op) (key : TxKey) :
    (d.applyNow op).bucket key = d.bucket key := by
  rw [bucket, buffer_applyNow, bucket]

omit [Folds σ] in
theorem bucket_hold (d : Document σ) (op : Op) (key : TxKey) :
    (d.hold op).bucket key = d.bucket key ++ if op.txKey = some key then [op] else [] := by
  rw [bucket, hold, List.filter_append, List.filter_singleton, bucket]
  split
  next hKey => simp [hKey]
  next hKey => simp [hKey]

theorem bucket_commitMember (d : Document σ) (op : Op) (key : TxKey) :
    (d.commitMember op).bucket key = d.bucket key := by
  unfold commitMember
  split
  · exact bucket_applyNow ..
  · rw [bucket_hold, if_neg (by simp [Op.txKey]), List.append_nil]

@[simp]
theorem resolvedTx_commitMember (d : Document σ) (op : Op) :
    (d.commitMember op).resolvedTx = d.resolvedTx := by
  unfold commitMember
  split
  · exact resolvedTx_applyNow ..
  · rfl

/-! ### The drain ends -/

/-- What an op costs the drain: a tagged one is untagged before it goes. -/
def weight (op : Op) : Nat := if op.tx.isSome then 2 else 1

/-- What the drain has left to do. -/
def waiting (d : Document σ) : Nat := (d.buffer.map weight).sum

omit [Folds σ] in
theorem weight_pos (op : Op) : 1 ≤ weight op := by
  unfold weight
  split <;> omega

omit [Folds σ] in
theorem weight_destray (d : Document σ) (op : Op) : weight (d.destray op) ≤ weight op := by
  unfold destray
  split
  · split
    · exact weight_pos op
    · exact le_rfl
  · exact le_rfl

omit [Folds σ] in
theorem waiting_le (d : Document σ) : d.waiting ≤ 2 * d.buffer.length := by
  have hEach : ∀ n ∈ d.buffer.map weight, n ≤ 2 := by
    intro n hn
    obtain ⟨op, -, rfl⟩ := List.mem_map.mp hn
    unfold weight
    split <;> omega
  have hSum := List.sum_le_card_nsmul _ 2 hEach
  rw [List.length_map, smul_eq_mul] at hSum
  unfold waiting
  omega

omit [Folds σ] in
theorem waiting_untagResolved (d : Document σ) : d.untagResolved.waiting ≤ d.waiting := by
  unfold waiting untagResolved
  dsimp only
  rw [List.map_map]
  exact List.sum_le_sum fun op _ => weight_destray d op

omit [Folds σ] in
theorem waiting_untagResolved_lt {op : Op} {key : TxKey} (hOp : op ∈ d.buffer)
    (hKey : op.txKey = some key) (hResolved : key ∈ d.resolvedTx) :
    d.untagResolved.waiting < d.waiting := by
  unfold waiting untagResolved
  dsimp only
  rw [List.map_map]
  apply List.sum_lt_sum
  · intro op _
    exact weight_destray d op
  · obtain ⟨tx, hTx, -⟩ := txKey_eq_some.mp hKey
    have hStray : d.destray op = op.untagged := by
      unfold destray
      rw [hKey]
      exact if_pos hResolved
    refine ⟨op, hOp, ?_⟩
    rw [Function.comp_apply, hStray]
    simp [weight, hTx]

omit [Folds σ] in
theorem waiting_resolveTx (d : Document σ) (key : TxKey) : (d.resolveTx key).waiting ≤ d.waiting := by
  unfold resolveTx
  split
  · exact le_rfl
  · exact waiting_untagResolved _

theorem waiting_commitMember (d : Document σ) (op : Op) :
    (d.commitMember op).waiting ≤ d.waiting + 1 := by
  unfold commitMember
  split
  · unfold waiting
    rw [buffer_applyNow]
    exact Nat.le_succ _
  · simp [waiting, hold, weight]

theorem waiting_foldl_commitMember (members : List Op) (d : Document σ) :
    (members.foldl commitMember d).waiting ≤ d.waiting + members.length := by
  induction members generalizing d with
  | nil => exact le_rfl
  | cons op members ih =>
    have hHead := waiting_commitMember d op
    have hRest := ih (d.commitMember op)
    rw [List.foldl_cons, List.length_cons]
    omega

omit [Folds σ] in
theorem waiting_eq_add (d : Document σ) (key : TxKey) :
    d.waiting = 2 * (d.bucket key).length +
      ((d.buffer.filter fun op => op.txKey ≠ some key).map weight).sum := by
  have hSplit : (d.bucket key ++ d.buffer.filter fun op => op.txKey ≠ some key).Perm d.buffer := by
    have hPerm := List.filter_append_perm (fun op : Op => decide (op.txKey = some key)) d.buffer
    simpa only [bucket, ne_eq, decide_not] using hPerm
  have hTagged : (d.bucket key).map weight = (d.bucket key).map fun _ => 2 := by
    apply List.map_congr_left
    intro op hOp
    obtain ⟨tx, hTx, -⟩ := txKey_eq_some.mp (mem_bucket.mp hOp).2
    simp [weight, hTx]
  unfold waiting
  rw [← (hSplit.map weight).sum_eq, List.map_append, List.sum_append, hTagged, List.map_const',
    List.sum_replicate, smul_eq_mul, Nat.mul_comm]

omit [Folds σ] in
theorem bucket_ne_nil_of_complete {key : TxKey} (h : d.complete = some key) : d.bucket key ≠ [] := by
  have hCount := List.find?_some h
  intro hNil
  rw [hNil] at hCount
  cases hCount

theorem waiting_commitGroup {key : TxKey} (h : d.complete = some key) :
    (d.commitGroup key).waiting < d.waiting := by
  have hPos : 0 < (d.bucket key).length := List.length_pos_of_ne_nil (bucket_ne_nil_of_complete h)
  unfold commitGroup
  dsimp only
  have hFold := waiting_foldl_commitMember
    ((d.bucket key).reverse.insertionSort fun a b => a.id.seq ≤ b.id.seq)
    (({ d with buffer := d.buffer.filter fun op => op.txKey ≠ some key } : Document σ).resolveTx key)
  have hResolve := waiting_resolveTx
    ({ d with buffer := d.buffer.filter fun op => op.txKey ≠ some key } : Document σ) key
  have hBefore := waiting_eq_add d key
  rw [List.length_insertionSort, List.length_reverse] at hFold
  unfold waiting at hFold hResolve hBefore ⊢
  dsimp only at hResolve
  omega

/-- Each move of the drain leaves less to do. -/
theorem waiting_drainStep (h : d.drainStep = some d') : d'.waiting < d.waiting := by
  obtain ⟨op, rest, -, -, -, hPerm, rfl⟩ | ⟨⟨key, hSplit, -⟩, rfl⟩ | ⟨key, hKey, rfl⟩ :=
    drainStep_cases h
  · have hPos := weight_pos op
    unfold waiting
    rw [buffer_applyNow, ← (hPerm.map weight).sum_eq, List.map_cons, List.sum_cons]
    dsimp only
    omega
  · obtain ⟨op, hOp, hTx⟩ := List.mem_filterMap.mp (List.mem_filter.mp hSplit).1
    exact waiting_untagResolved_lt
      (d := ({ d with resolvedTx := d.resolvedTx ∪ d.disagreeing.toFinset } : Document σ)) hOp hTx
      (Finset.mem_union_right _ (List.mem_toFinset.mpr hSplit))
  · exact waiting_commitGroup hKey

theorem drainStep_drainLoop (fuel : Nat) (d : Document σ) (hFuel : d.waiting ≤ fuel) :
    (drainLoop fuel d).drainStep = none := by
  induction fuel generalizing d with
  | zero =>
    cases hStep : d.drainStep with
    | none => exact hStep
    | some d' =>
      have hLess := waiting_drainStep hStep
      omega
  | succ fuel ih =>
    unfold drainLoop
    cases hStep : d.drainStep with
    | none => exact hStep
    | some d' =>
      have hLess := waiting_drainStep hStep
      exact ih d' (by omega)

theorem drainStep_drainBuffer (d : Document σ) : d.drainBuffer.drainStep = none :=
  drainStep_drainLoop _ d (waiting_le d)

theorem complete_drainBuffer (d : Document σ) : d.drainBuffer.complete = none := by
  have hStep := drainStep_drainBuffer d
  unfold drainStep at hStep
  split at hStep
  · cases hStep
  · dsimp only at hStep
    split at hStep
    · cases hStep
    · exact Option.map_eq_none_iff.mp hStep

end Document

end CrdtSync
