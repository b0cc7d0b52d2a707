import CrdtSync.Core.GroupDrain

/-!
# What a drain releases

A drain lets go of groups whose key it spends, each as a whole, and leaves every other group as it
is held. What it takes out of the buffer it has folded in, so every op on record stays on record.
-/

namespace CrdtSync

namespace Document

variable {σ : Type} {d d' d'' : Document σ} {op : Op} {key : TxKey} {coming rest : List Op}

/-- `d'` has lost buckets whose key is spent, and is otherwise `d`. -/
structure Releases (d d' : Document σ) : Prop where
  known : d'.known = d.known
  tracked : d.Tracked → d'.Tracked
  resolved : d.resolvedTx ⊆ d'.resolvedTx
  bucket : ∀ key, (d'.bucket key).Perm (d.bucket key) ∧
      (key ∈ d'.resolvedTx → key ∈ d.resolvedTx) ∨ key ∈ d'.resolvedTx ∧ d'.bucket key = []

namespace Releases

theorem refl (d : Document σ) : Releases d d :=
  ⟨rfl, id, Finset.Subset.refl _, fun _ => .inl ⟨.refl _, id⟩⟩

theorem trans (h : Releases d d') (h' : Releases d' d'') : Releases d d'' where
  known := h'.known.trans h.known
  tracked hd := h'.tracked (h.tracked hd)
  resolved := h.resolved.trans h'.resolved
  bucket key := by
    obtain ⟨hPerm', hOpen'⟩ | hSpent' := h'.bucket key
    · obtain ⟨hPerm, hOpen⟩ | ⟨hResolved, hEmpty⟩ := h.bucket key
      · exact .inl ⟨hPerm'.trans hPerm, fun hKey => hOpen (hOpen' hKey)⟩
      · rw [hEmpty] at hPerm'
        exact .inr ⟨h'.resolved hResolved, hPerm'.eq_nil⟩
    · exact .inr hSpent'

/-- Spending a set of keys untags what is held under them. -/
theorem spend (d : Document σ) (keys : Finset TxKey) :
    Releases d ({ d with resolvedTx := d.resolvedTx ∪ keys } : Document σ).untagResolved where
  known := known_untagResolved _
  tracked hd := by
    intro op hOp
    obtain ⟨held, hHeld, rfl⟩ := List.mem_map.mp hOp
    rw [destray_id]
    exact hd held hHeld
  resolved := Finset.subset_union_left
  bucket key := by
    rw [bucket_untagResolved]
    split
    next hResolved => exact .inr ⟨hResolved, rfl⟩
    next hOpen => exact .inl ⟨.refl _, fun hKey => absurd hKey hOpen⟩

theorem resolveTx (d : Document σ) (key : TxKey) : Releases d (d.resolveTx key) := by
  unfold Document.resolveTx
  split
  · exact refl d
  · have hInsert : insert key d.resolvedTx = d.resolvedTx ∪ {key} := by
      rw [Finset.insert_eq, Finset.union_comm]
    rw [hInsert]
    exact spend d {key}

end Releases

/-! ### Who is on record -/

@[simp]
theorem seen_advanceClock (d : Document σ) (zone : Option Nat) (floor : Nat) :
    (d.advanceClock zone floor).seen = d.seen := by
  cases zone <;> rfl

@[simp]
theorem buffered_advanceClock (d : Document σ) (zone : Option Nat) (floor : Nat) :
    (d.advanceClock zone floor).buffered = d.buffered := by
  cases zone <;> rfl

@[simp]
theorem seen_recordStamp (d : Document σ) (stamp : Stamp) (n : Nat) :
    (d.recordStamp stamp n).seen = d.seen := by
  unfold recordStamp
  dsimp only
  split <;> rfl

@[simp]
theorem buffered_recordStamp (d : Document σ) (stamp : Stamp) (n : Nat) :
    (d.recordStamp stamp n).buffered = d.buffered := by
  unfold recordStamp
  dsimp only
  split <;> rfl

theorem Tracked.hold (h : d.Tracked) (op : Op) : (d.hold op).Tracked := by
  intro other hOther
  obtain hHeld | hNew := List.mem_append.mp hOther
  · obtain hSeen | hBuffered := h other hHeld
    · exact .inl hSeen
    · exact .inr (Finset.mem_insert_of_mem hBuffered)
  · rw [List.mem_singleton.mp hNew]
    exact .inr (Finset.mem_insert_self _ _)

variable [Folds σ]

@[simp]
theorem seen_applyNow (d : Document σ) (op : Op) : (d.applyNow op).seen = insert op.id d.seen := by
  simp [applyNow, applyKind]

@[simp]
theorem buffered_applyNow (d : Document σ) (op : Op) : (d.applyNow op).buffered = d.buffered := by
  simp [applyNow, applyKind]

/-- Applying an op that leaves the buffer keeps every other one on record. -/
theorem Tracked.release (h : d.Tracked) {held : List Op} (hHeld : held ⊆ d.buffer) (op : Op) :
    (({ d with buffer := held, buffered := d.buffered.erase op.id } : Document σ).applyNow
      op).Tracked := by
  intro other hOther
  rw [buffer_applyNow] at hOther
  rw [seen_applyNow, buffered_applyNow]
  obtain hSame | hApart := eq_or_ne other.id op.id
  · exact .inl (hSame ▸ Finset.mem_insert_self _ _)
  · obtain hSeen | hBuffered := h other (hHeld hOther)
    · exact .inl (Finset.mem_insert_of_mem hSeen)
    · exact .inr (Finset.mem_erase_of_ne_of_mem hApart hBuffered)

theorem Tracked.commitMember (h : d.Tracked) (op : Op) : (d.commitMember op).Tracked := by
  unfold Document.commitMember
  split
  · exact h.release (List.Subset.refl _) op
  · exact h.hold _

theorem Tracked.foldl_commitMember (members : List Op) (h : d.Tracked) :
    (members.foldl Document.commitMember d).Tracked := by
  induction members generalizing d with
  | nil => exact h
  | cons op members ih => exact ih (h.commitMember op)

namespace Releases

/-! ### What the drain releases -/

theorem foldl_commitMember (members : List Op) (d : Document σ) :
    (members.foldl commitMember d).resolvedTx = d.resolvedTx ∧
      ∀ key, (members.foldl commitMember d).bucket key = d.bucket key := by
  induction members generalizing d with
  | nil => exact ⟨rfl, fun _ => rfl⟩
  | cons op members ih =>
    obtain ⟨hResolved, hBucket⟩ := ih (d.commitMember op)
    refine ⟨hResolved.trans (resolvedTx_commitMember d op), fun key => ?_⟩
    exact (hBucket key).trans (bucket_commitMember d op key)

theorem commitGroup (d : Document σ) (key : TxKey) : Releases d (d.commitGroup key) := by
  have hKnown := known_commitGroup d key
  unfold Document.commitGroup at hKnown ⊢
  dsimp only at hKnown ⊢
  generalize ((d.bucket key).reverse.insertionSort fun a b => a.id.seq ≤ b.id.seq) = members at hKnown ⊢
  have hSpend := resolveTx
    ({ d with buffer := d.buffer.filter fun op => op.txKey ≠ some key } : Document σ) key
  obtain ⟨hResolved, hBucket⟩ := foldl_commitMember members
    (({ d with buffer := d.buffer.filter fun op => op.txKey ≠ some key } : Document σ).resolveTx key)
  refine ⟨hKnown, ?_, ?_, ?_⟩
  · intro hd
    apply Tracked.foldl_commitMember
    apply hSpend.tracked
    intro op hOp
    exact hd op (List.mem_filter.mp hOp).1
  · rw [hResolved]
    exact hSpend.resolved
  · intro other
    rw [hResolved, hBucket]
    obtain ⟨hPerm, hOpen⟩ | hSpent := hSpend.bucket other
    · obtain rfl | hApart := eq_or_ne other key
      · refine .inr ⟨(mem_resolvedTx_resolveTx _ _ _).mpr (.inl rfl), ?_⟩
        have hEmpty : Document.bucket
            ({ d with buffer := d.buffer.filter fun op => op.txKey ≠ some other } : Document σ)
            other = [] := by
          apply List.filter_eq_nil_iff.mpr
          intro op hOp hKey
          exact of_decide_eq_true (List.mem_filter.mp hOp).2 (of_decide_eq_true hKey)
        rw [hEmpty] at hPerm
        exact hPerm.eq_nil
      · refine .inl ⟨hPerm.trans (.of_eq ?_), hOpen⟩
        unfold Document.bucket
        dsimp only
        rw [List.filter_filter]
        apply List.filter_congr
        intro op _
        rw [← Bool.decide_and]
        apply decide_eq_decide.mpr
        constructor
        · rintro ⟨h, -⟩
          exact h
        · intro h
          refine ⟨h, fun hOther => hApart ?_⟩
          exact Option.some.inj (h.symm.trans hOther)
    · exact .inr hSpent

theorem drainStep (h : d.drainStep = some d') : Releases d d' := by
  have hKnown := known_drainStep h
  obtain ⟨op, rest, -, hTx, -, hPerm, rfl⟩ | ⟨-, rfl⟩ | ⟨key, -, rfl⟩ := drainStep_cases h
  · refine ⟨hKnown, fun hd => hd.release ?_ op, by rw [resolvedTx_applyNow], fun key => .inl ?_⟩
    · intro other hOther
      exact hPerm.mem_iff.mp (List.mem_cons_of_mem _ hOther)
    · rw [bucket_applyNow, resolvedTx_applyNow]
      refine ⟨?_, id⟩
      have hFilter := hPerm.filter fun op => op.txKey = some key
      rw [List.filter_cons_of_neg (by simp [txKey_eq_none.mpr hTx])] at hFilter
      exact hFilter
  · exact spend d _
  · exact commitGroup d key

theorem drainBuffer (d : Document σ) : Releases d d.drainBuffer := by
  have hLoop : ∀ fuel (d : Document σ), Releases d (drainLoop fuel d) := by
    intro fuel
    induction fuel with
    | zero => exact refl
    | succ fuel ih =>
      intro d
      unfold drainLoop
      cases hStep : d.drainStep with
      | none => exact refl d
      | some d' => exact (drainStep hStep).trans (ih d')
  exact hLoop _ d

end Releases

/-! ### A frame of groups -/

/-- The members of a group among some ops. -/
def membersOf (key : TxKey) (ops : List Op) : List Op := ops.filter fun op => op.txKey = some key

omit [Folds σ] in
theorem mem_membersOf {ops : List Op} : op ∈ membersOf key ops ↔ op ∈ ops ∧ op.txKey = some key := by
  rw [membersOf, List.mem_filter, decide_eq_true_eq]

omit [Folds σ] in
theorem declaredCount_eq {ops : List Op} {n : Nat} (hOps : ops ≠ [])
    (h : ∀ op ∈ ops, op.tx.map Tx.count = some n) : declaredCount ops = some n := by
  obtain ⟨op, rest, rfl⟩ := List.exists_cons_of_ne_nil hOps
  obtain ⟨tx, hTx, rfl⟩ := Option.map_eq_some_iff.mp (h op List.mem_cons_self)
  have hRest : (rest.all fun other => other.tx.map Tx.count == some tx.count) = true := by
    apply List.all_eq_true.mpr
    intro other hOther
    exact beq_iff_eq.mpr (h other (List.mem_cons_of_mem _ hOther))
  unfold declaredCount
  dsimp only
  rw [hTx]
  exact if_pos hRest

omit [Folds σ] in
theorem bucket_eq_nil_of_untagged (h : ∀ op ∈ d.buffer, op.tx = none) (key : TxKey) :
    d.bucket key = [] := by
  apply List.filter_eq_nil_iff.mpr
  intro op hOp hKey
  rw [txKey_eq_none.mpr (h op hOp)] at hKey
  cases of_decide_eq_true hKey

end Document

end CrdtSync
