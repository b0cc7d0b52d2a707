import CrdtSync.Core.BufferRuns

/-!
# Members of one group under different envelopes

A member reaches a replica with its group's tag, or without it where a filter
withheld another member. What decides is the first envelope of each member: the
bucket counts the members whose first one carried the tag, and nothing else.
-/

namespace CrdtSync

namespace Document

variable {σ : Type} {d d' : Document σ} {key : TxKey} {members past delivery out : List Op}

/-! ### The buffer, the held ids and the dedup set -/

/-- The held ids are those of the buffer and of the ops just taken out of it, each
once, and none of them is applied. -/
structure KeptBut (d : Document σ) (out : List Op) : Prop where
  ids : (d.buffer.map Op.id ++ out.map Op.id).Nodup
  held : ∀ id, id ∈ d.buffered ↔ id ∈ d.buffer.map Op.id ∨ id ∈ out.map Op.id
  apart : ∀ id ∈ d.buffered, id ∉ d.seen

def Kept (d : Document σ) : Prop := d.KeptBut []

theorem KeptBut.congr (h : d.KeptBut out) (hIds : d'.buffer.map Op.id = d.buffer.map Op.id)
    (hBuffered : d'.buffered = d.buffered) (hSeen : d'.seen = d.seen) : d'.KeptBut out := by
  refine ⟨?_, ?_, ?_⟩
  · rw [hIds]
    exact h.ids
  · rw [hIds, hBuffered]
    exact h.held
  · rw [hBuffered, hSeen]
    exact h.apart

theorem Kept.mem_buffered (h : d.Kept) {id : OpId} :
    id ∈ d.buffered ↔ id ∈ d.buffer.map Op.id := by
  rw [KeptBut.held h]
  simp

theorem Kept.tracked (h : d.Kept) : d.Tracked := by
  intro op hOp
  exact .inr (h.mem_buffered.mpr (List.mem_map_of_mem hOp))

theorem Kept.takeOut (h : d.Kept) {rest : List Op} (hPerm : (out ++ rest).Perm d.buffer) :
    ({ d with buffer := rest } : Document σ).KeptBut out := by
  have hIds : (rest.map Op.id ++ out.map Op.id).Perm (d.buffer.map Op.id) := by
    rw [← List.map_append]
    exact (List.perm_append_comm.trans hPerm).map _
  have hApart : ∀ id ∈ d.buffered, id ∉ d.seen := KeptBut.apart h
  refine ⟨?_, ?_, hApart⟩
  · have hNodup := KeptBut.ids h
    rw [List.map_nil, List.append_nil] at hNodup
    exact hIds.nodup_iff.mpr hNodup
  · intro id
    rw [← List.mem_append, hIds.mem_iff]
    exact h.mem_buffered

theorem KeptBut.untagResolved (h : d.KeptBut out) : d.untagResolved.KeptBut out := by
  refine h.congr ?_ rfl rfl
  simp [Document.untagResolved, Function.comp_def]

theorem KeptBut.resolveTx (h : d.KeptBut out) (key : TxKey) : (d.resolveTx key).KeptBut out := by
  unfold Document.resolveTx
  split
  · exact h
  · exact KeptBut.untagResolved (h.congr rfl rfl rfl)

theorem KeptBut.holdOut {op : Op} (h : d.KeptBut (op :: out)) : (d.hold op.untagged).KeptBut out := by
  refine ⟨?_, ?_, ?_⟩
  · have hPerm : ((d.hold op.untagged).buffer.map Op.id ++ out.map Op.id).Perm
        (d.buffer.map Op.id ++ (op :: out).map Op.id) := by
      simp [hold]
    exact hPerm.nodup_iff.mpr h.ids
  · intro id
    have hHeld := h.held id
    simp only [hold, Finset.mem_insert, List.map_append, List.map_cons, List.map_nil,
      List.mem_append, List.mem_cons, Op.untagged_id] at hHeld ⊢
    rw [hHeld]
    tauto
  · intro id hId
    obtain rfl | hOld := Finset.mem_insert.mp hId
    · exact h.apart _ ((h.held _).mpr (.inr List.mem_cons_self))
    · exact h.apart id hOld

variable [Folds σ]

theorem KeptBut.applyOut {op : Op} (h : d.KeptBut (op :: out)) :
    (({ d with buffered := d.buffered.erase op.id } : Document σ).applyNow op).KeptBut out := by
  have hNodup := h.ids
  rw [List.map_cons, List.nodup_append, List.nodup_cons] at hNodup
  obtain ⟨hBuffer, ⟨hOut, hRest⟩, hApart⟩ := hNodup
  have hFresh : op.id ∉ d.buffer.map Op.id := fun hId => hApart _ hId _ List.mem_cons_self rfl
  refine ⟨?_, ?_, ?_⟩
  · rw [buffer_applyNow, List.nodup_append]
    exact ⟨hBuffer, hRest, fun a ha b hb => hApart a ha b (List.mem_cons_of_mem _ hb)⟩
  · intro id
    rw [buffered_applyNow, buffer_applyNow, Finset.mem_erase, h.held, List.map_cons, List.mem_cons]
    constructor
    · rintro ⟨hNe, hHeld | rfl | hTaken⟩
      · exact .inl hHeld
      · exact absurd rfl hNe
      · exact .inr hTaken
    · rintro (hHeld | hTaken)
      · exact ⟨fun hSame => hFresh (hSame ▸ hHeld), .inl hHeld⟩
      · exact ⟨fun hSame => hOut (hSame ▸ hTaken), .inr (.inr hTaken)⟩
  · intro id hId
    rw [buffered_applyNow] at hId
    rw [seen_applyNow, Finset.mem_insert]
    obtain ⟨hNe, hHeld⟩ := Finset.mem_erase.mp hId
    rintro (hSame | hSeen)
    · exact hNe hSame
    · exact h.apart id hHeld hSeen

theorem KeptBut.commitMember {op : Op} (h : d.KeptBut (op :: out)) :
    (d.commitMember op).KeptBut out := by
  unfold Document.commitMember
  split
  · exact h.applyOut
  · exact h.holdOut

theorem KeptBut.foldl_commitMember (h : d.KeptBut out) : (out.foldl Document.commitMember d).Kept := by
  induction out generalizing d with
  | nil => exact h
  | cons op out ih => exact ih h.commitMember

omit [Folds σ] in
/-- The members of a bucket that leaves the buffer are accounted for as taken out. -/
theorem Kept.takeBucket (h : d.Kept) (key : TxKey) :
    ({ d with buffer := d.buffer.filter fun op => op.txKey ≠ some key } : Document σ).KeptBut
      ((d.bucket key).reverse.insertionSort fun a b => a.id.seq ≤ b.id.seq) := by
  apply h.takeOut
  have hMembers : ((d.bucket key).reverse.insertionSort fun a b => a.id.seq ≤ b.id.seq).Perm
      (d.bucket key) := (List.perm_insertionSort _ _).trans (List.reverse_perm _)
  refine (hMembers.append_right _).trans ?_
  have hSplit := List.filter_append_perm (fun op : Op => decide (op.txKey = some key)) d.buffer
  simpa only [bucket, ne_eq, decide_not] using hSplit

theorem Kept.drainStep (h : d.Kept) (hStep : d.drainStep = some d') : d'.Kept := by
  obtain ⟨op, rest, -, -, -, hPerm, rfl⟩ | ⟨-, rfl⟩ | ⟨key, -, rfl⟩ := drainStep_cases hStep
  · have hOut : ({ d with buffer := rest } : Document σ).KeptBut [op] := h.takeOut hPerm
    exact hOut.applyOut
  · exact KeptBut.untagResolved (KeptBut.congr h rfl rfl rfl)
  · unfold commitGroup
    dsimp only
    exact ((h.takeBucket key).resolveTx key).foldl_commitMember

theorem drainLoop_induct {P : Document σ → Prop}
    (hStep : ∀ d d', P d → d.drainStep = some d' → P d') (h : P d) (fuel : Nat) :
    P (drainLoop fuel d) := by
  induction fuel generalizing d with
  | zero => exact h
  | succ fuel ih =>
    unfold drainLoop
    cases hNext : d.drainStep with
    | none => exact h
    | some d' => exact ih (hStep d d' h hNext)

theorem Kept.drainBuffer (h : d.Kept) : d.drainBuffer.Kept :=
  drainLoop_induct (fun _ _ hd hStep => Kept.drainStep hd hStep) h _

omit [Folds σ] in
theorem Kept.hold (h : d.Kept) {op : Op} (hNew : op.id ∉ d.known) : (d.hold op).Kept := by
  have hIds : op.id ∉ d.buffer.map Op.id := fun hId =>
    hNew (mem_known.mpr (.inr (.inr hId)))
  have hTaken : d.buffer.map Op.id ++ [op].map Op.id = (d.hold op).buffer.map Op.id := by
    simp [Document.hold]
  refine ⟨?_, ?_, ?_⟩
  · rw [List.map_nil, List.append_nil, ← hTaken, List.nodup_append]
    have hOld := KeptBut.ids h
    rw [List.map_nil, List.append_nil] at hOld
    refine ⟨hOld, List.nodup_singleton _, ?_⟩
    rintro id hId other hOther rfl
    rw [List.map_cons, List.map_nil, List.mem_singleton] at hOther
    exact hIds (hOther ▸ hId)
  · intro id
    rw [← hTaken, List.mem_append, ← h.mem_buffered]
    simp only [Document.hold, Finset.mem_insert, List.map_cons, List.map_nil, List.mem_singleton,
      List.not_mem_nil, or_false]
    tauto
  · intro id hId
    obtain rfl | hOld := Finset.mem_insert.mp hId
    · exact fun hSeen => hNew (mem_known.mpr (.inl hSeen))
    · exact KeptBut.apart h id hOld

theorem Kept.applyNow (h : d.Kept) {op : Op} (hNew : op.id ∉ d.known) : (d.applyNow op).Kept := by
  refine ⟨?_, ?_, ?_⟩
  · rw [buffer_applyNow]
    exact KeptBut.ids h
  · rw [buffer_applyNow, buffered_applyNow]
    exact KeptBut.held h
  · intro id hId
    rw [buffered_applyNow] at hId
    rw [seen_applyNow, Finset.mem_insert]
    rintro (rfl | hSeen)
    · exact hNew (mem_known.mpr (.inr (.inl hId)))
    · exact KeptBut.apart h id hId hSeen

theorem Kept.applyDuplicate (h : d.Kept) (op : Op) : (d.applyDuplicate op).Kept := by
  unfold Document.applyDuplicate
  split
  · exact h
  · split
    · split
      · exact h
      · exact Kept.drainBuffer (KeptBut.resolveTx (KeptBut.resolveTx h _) _)
    · exact h

theorem Kept.accept (h : d.Kept) {op : Op} (hNew : op.id ∉ d.known) : (d.accept op).Kept := by
  have hNoted : (d.recordStamp op.stamp (span op.kind)).Kept :=
    KeptBut.congr h (by rw [buffer_recordStamp]) (buffered_recordStamp ..) (seen_recordStamp ..)
  have hUnknown : op.id ∉ (d.recordStamp op.stamp (span op.kind)).known := by
    rw [known_recordStamp]
    exact hNew
  unfold Document.accept
  split
  · exact (hNoted.hold hUnknown).drainBuffer
  · split
    · exact (h.applyNow hNew).drainBuffer
    · exact hNoted.hold hUnknown

theorem Kept.apply (h : d.Kept) (op : Op) : (d.apply op).Kept := by
  unfold Document.apply
  split
  · exact h
  · split
    · exact h.applyDuplicate op
    next hNew =>
      have hErased : ({ d with reserved := d.reserved.erase op.id } : Document σ).Kept :=
        KeptBut.congr h rfl rfl rfl
      apply hErased.accept
      rw [destray_id]
      exact fun hKnown => hNew (h.tracked.mem_known.mp hKnown)

theorem kept_foldl_apply (h : d.Kept) (arrivals : List Op) : (arrivals.foldl Document.apply d).Kept := by
  induction arrivals generalizing d with
  | nil => exact h
  | cons op arrivals ih => exact ih (h.apply op)

/-! ### Copies of held ops -/

/-- Every op held now was held before, perhaps under a tag. -/
def Thins (d d' : Document σ) : Prop :=
  ∀ op ∈ d'.buffer, ∃ held ∈ d.buffer, op = held ∨ op = held.untagged

omit [Folds σ] in
theorem Thins.trans {d'' : Document σ} (h : Thins d d') (h' : Thins d' d'') : Thins d d'' := by
  intro op hOp
  obtain ⟨mid, hMid, hEnvelope⟩ := h' op hOp
  obtain ⟨held, hHeld, rfl | rfl⟩ := h mid hMid
  · exact ⟨_, hHeld, hEnvelope⟩
  · refine ⟨held, hHeld, .inr ?_⟩
    obtain rfl | rfl := hEnvelope <;> rfl

omit [Folds σ] in
theorem thins_untagResolved (d : Document σ) : Thins d d.untagResolved := by
  intro op hOp
  obtain ⟨held, hHeld, rfl⟩ := List.mem_map.mp hOp
  refine ⟨held, hHeld, ?_⟩
  unfold destray
  split
  · split
    · exact .inr rfl
    · exact .inl rfl
  · exact .inl rfl

omit [Folds σ] in
theorem thins_resolveTx (d : Document σ) (key : TxKey) : Thins d (d.resolveTx key) := by
  unfold Document.resolveTx
  split
  · exact fun op hOp => ⟨op, hOp, .inl rfl⟩
  · exact thins_untagResolved ({ d with resolvedTx := insert key d.resolvedTx })

theorem mem_buffer_foldl_commitMember {ops : List Op} {op : Op}
    (h : op ∈ (ops.foldl commitMember d).buffer) :
    op ∈ d.buffer ∨ ∃ held ∈ ops, op = held.untagged := by
  induction ops generalizing d with
  | nil => exact .inl h
  | cons first ops ih =>
    obtain hOne | ⟨held, hHeld, rfl⟩ := ih h
    · unfold commitMember at hOne
      split at hOne
      · rw [buffer_applyNow] at hOne
        exact .inl hOne
      · obtain hOld | hNew := List.mem_append.mp hOne
        · exact .inl hOld
        · exact .inr ⟨first, List.mem_cons_self, List.mem_singleton.mp hNew⟩
    · exact .inr ⟨held, List.mem_cons_of_mem _ hHeld, rfl⟩

theorem thins_drainStep (hStep : d.drainStep = some d') : Thins d d' := by
  obtain ⟨op, rest, -, -, -, hPerm, rfl⟩ | ⟨-, rfl⟩ | ⟨key, -, rfl⟩ := drainStep_cases hStep
  · intro other hOther
    rw [buffer_applyNow] at hOther
    exact ⟨other, hPerm.mem_iff.mp (List.mem_cons_of_mem _ hOther), .inl rfl⟩
  · exact thins_untagResolved ({ d with resolvedTx := d.resolvedTx ∪ d.disagreeing.toFinset })
  · intro op hOp
    unfold commitGroup at hOp
    dsimp only at hOp
    obtain hRest | ⟨held, hHeld, rfl⟩ := mem_buffer_foldl_commitMember hOp
    · obtain ⟨held, hHeld, hEnvelope⟩ := thins_resolveTx
        ({ d with buffer := d.buffer.filter fun op => op.txKey ≠ some key }) key op hRest
      exact ⟨held, List.mem_of_mem_filter hHeld, hEnvelope⟩
    · rw [List.mem_insertionSort, List.mem_reverse, mem_bucket] at hHeld
      exact ⟨held, hHeld.1, .inr rfl⟩

theorem thins_drainBuffer (d : Document σ) : Thins d d.drainBuffer := by
  refine drainLoop_induct (P := Thins d) ?_ (fun op hOp => ⟨op, hOp, .inl rfl⟩) _
  exact fun _ _ h hStep => h.trans (thins_drainStep hStep)

/-! ### A group short of its size, and a full one -/

/-- An open group whose held members all declare `size` and are fewer. -/
structure Short (d : Document σ) (key : TxKey) (size : Nat) : Prop where
  unspent : key ∉ d.resolvedTx
  sized : ∀ op ∈ d.bucket key, op.tx.map Tx.count = some size
  fewer : (d.bucket key).length < size

theorem resolvedTx_commitGroup (d : Document σ) (key other : TxKey) :
    other ∈ (d.commitGroup key).resolvedTx ↔ other = key ∨ other ∈ d.resolvedTx := by
  unfold commitGroup
  dsimp only
  rw [(Releases.foldl_commitMember _ _).1]
  exact mem_resolvedTx_resolveTx _ _ _

theorem Short.drainStep {size : Nat} (h : d.Short key size) (hStep : d.drainStep = some d') :
    d'.Short key size ∧ (d'.bucket key).Perm (d.bucket key) := by
  have hOpen : key ∉ d'.resolvedTx := by
    obtain ⟨op, rest, -, -, -, -, rfl⟩ | ⟨-, rfl⟩ | ⟨other, hComplete, rfl⟩ := drainStep_cases hStep
    · rw [resolvedTx_applyNow]
      exact h.unspent
    · intro hSpent
      obtain hOld | hSplit := Finset.mem_union.mp hSpent
      · exact h.unspent hOld
      · obtain ⟨hNamed, hNone⟩ := List.mem_filter.mp (List.mem_toFinset.mp hSplit)
        obtain ⟨op, hOp, hTx⟩ := List.mem_filterMap.mp hNamed
        rw [declaredCount_eq (List.ne_nil_of_mem (mem_bucket.mpr ⟨hOp, hTx⟩)) h.sized] at hNone
        cases hNone
    · rw [resolvedTx_commitGroup]
      rintro (rfl | hOld)
      · have hFull := List.find?_some hComplete
        rw [declaredCount_eq (bucket_ne_nil_of_complete hComplete) h.sized, beq_iff_eq] at hFull
        exact h.fewer.ne' (Option.some.inj hFull)
      · exact h.unspent hOld
  obtain ⟨hPerm, -⟩ | ⟨hSpent, -⟩ := (Releases.drainStep hStep).bucket key
  · refine ⟨⟨hOpen, fun op hOp => h.sized op (hPerm.mem_iff.mp hOp), ?_⟩, hPerm⟩
    rw [hPerm.length_eq]
    exact h.fewer
  · exact absurd hSpent hOpen

theorem Short.drainBuffer {size : Nat} (h : d.Short key size) :
    d.drainBuffer.Short key size ∧ (d.drainBuffer.bucket key).Perm (d.bucket key) := by
  refine drainLoop_induct (P := fun d' => d'.Short key size ∧
    (d'.bucket key).Perm (d.bucket key)) ?_ ⟨h, .refl _⟩ _
  rintro d₁ d₂ ⟨hShort, hPerm⟩ hStep
  obtain ⟨hNext, hSame⟩ := hShort.drainStep hStep
  exact ⟨hNext, hSame.trans hPerm⟩

/-- A group at its size is committed. -/
theorem spent_drainBuffer_of_full (hSome : d.bucket key ≠ [])
    (hFull : ∀ op ∈ d.bucket key, op.tx.map Tx.count = some (d.bucket key).length) :
    key ∈ d.drainBuffer.resolvedTx ∧ d.drainBuffer.bucket key = [] := by
  obtain ⟨hPerm, -⟩ | hSpent := (Releases.drainBuffer d).bucket key
  · have hHeld : d.drainBuffer.bucket key ≠ [] := by
      intro hNil
      rw [hNil] at hPerm
      exact hSome hPerm.nil_eq.symm
    obtain ⟨op, hOp⟩ := List.exists_mem_of_ne_nil _ hHeld
    obtain ⟨hBuffer, hTx⟩ := mem_bucket.mp hOp
    have hNot := List.find?_eq_none.mp (complete_drainBuffer d) key
      (List.mem_filterMap.mpr ⟨op, hBuffer, hTx⟩)
    have hCount : declaredCount (d.drainBuffer.bucket key) =
        some (d.drainBuffer.bucket key).length := by
      apply declaredCount_eq hHeld
      intro other hOther
      rw [hPerm.length_eq]
      exact hFull other (hPerm.mem_iff.mp hOther)
    rw [hCount, beq_self_eq_true] at hNot
    exact absurd rfl hNot
  · exact hSpent

/-! ### One group, member by member -/

/-- The members of one atomic group, as their author tagged them. -/
structure GroupOf (key : TxKey) (members : List Op) : Prop where
  nonempty : members ≠ []
  ids : (members.map Op.id).Nodup
  tagged : ∀ m ∈ members, m.txKey = some key
  sized : ∀ m ∈ members, m.tx.map Tx.count = some members.length
  admissible : ∀ m ∈ members, m.isAdmissible

/-- Each copy of a member carries the group's tag or none, and only members carry it. -/
structure Delivers (key : TxKey) (members delivery : List Op) : Prop where
  envelope : ∀ op ∈ delivery, ∀ m ∈ members, op.id = m.id → op = m ∨ op = m.untagged
  own : ∀ op ∈ delivery, op.txKey = some key → op ∈ members

/-- Nothing of the group has reached the replica. -/
structure Unheard (d : Document σ) (key : TxKey) (members : List Op) : Prop where
  kept : d.Kept
  unspent : key ∉ d.resolvedTx
  empty : d.bucket key = []
  unknown : ∀ m ∈ members, m.id ∉ d.known

/-- Whether the first copy of a member to arrive carried a tag. -/
def tagsFirst (past : List Op) (m : Op) : Bool :=
  (past.find? fun op => op.id = m.id).any fun op => op.tx.isSome

/-- Where a group stands once `past` has arrived. -/
inductive Stands (d : Document σ) (key : TxKey) (members past : List Op) : Prop
  | filling (unspent : key ∉ d.resolvedTx)
      (held : (d.bucket key).Perm (members.filter (tagsFirst past)))
  | released (spent : key ∈ d.resolvedTx) (empty : d.bucket key = [])
      (tagged : ∀ m ∈ members, tagsFirst past m = true)

/-- What is known of a group before the drain that follows an arrival. -/
structure Brought (d : Document σ) (key : TxKey) (members past : List Op) : Prop where
  kept : d.Kept
  known : ∀ m ∈ members, m.id ∈ d.known ↔ m.id ∈ past.map Op.id
  copies : ∀ op ∈ d.buffer, ∀ m ∈ members, op.id = m.id → op = m ∨ op = m.untagged
  stands : d.Stands key members past

/-- What is known after it: a group that has all its tags is released. -/
structure Gathering (d : Document σ) (key : TxKey) (members past : List Op) : Prop
    extends d.Brought key members past where
  full : (∀ m ∈ members, tagsFirst past m = true) → key ∈ d.resolvedTx

section Arrivals

omit [Folds σ]

theorem Delivers.tail {op : Op} (h : Delivers key members (op :: delivery)) :
    Delivers key members delivery where
  envelope other hOther := h.envelope other (List.mem_cons_of_mem _ hOther)
  own other hOther := h.own other (List.mem_cons_of_mem _ hOther)

theorem tagsFirst_append (past : List Op) (op m : Op) :
    tagsFirst (past ++ [op]) m =
      if m.id ∈ past.map Op.id then tagsFirst past m else decide (op.id = m.id) && op.tx.isSome := by
  unfold tagsFirst
  rw [List.find?_append]
  split
  next hArrived =>
    obtain ⟨first, hFirst, hId⟩ := List.mem_map.mp hArrived
    cases hFind : past.find? fun op => op.id = m.id with
    | none =>
      have hNot := List.find?_eq_none.mp hFind first hFirst
      exact absurd (decide_eq_true hId) hNot
    | some found => rfl
  next hNew =>
    have hFind : (past.find? fun op => op.id = m.id) = none := by
      apply List.find?_eq_none.mpr
      intro other hOther hId
      exact hNew (List.mem_map.mpr ⟨other, hOther, of_decide_eq_true hId⟩)
    rw [hFind, Option.none_or, List.find?_singleton]
    by_cases hId : op.id = m.id
    · simp [hId]
    · simp [hId]

theorem arrived_of_tagsFirst {m : Op} (h : tagsFirst past m = true) : m.id ∈ past.map Op.id := by
  simp only [tagsFirst, Option.any_eq_true] at h
  obtain ⟨op, hFind, -⟩ := h
  exact List.mem_map.mpr ⟨op, List.mem_of_find?_eq_some hFind, by simpa using List.find?_some hFind⟩

theorem GroupOf.nodup (hGroup : GroupOf key members) : members.Nodup := hGroup.ids.of_map _

theorem GroupOf.eq_of_id (hGroup : GroupOf key members) {m m' : Op} (hm : m ∈ members)
    (hm' : m' ∈ members) (hId : m.id = m'.id) : m = m' :=
  List.inj_on_of_nodup_map hGroup.ids hm hm' hId

theorem Brought.congr (h : d.Brought key members past) (hBuffer : d'.buffer = d.buffer)
    (hBuffered : d'.buffered = d.buffered) (hSeen : d'.seen = d.seen)
    (hResolved : d'.resolvedTx = d.resolvedTx) : d'.Brought key members past := by
  have hBucket : d'.bucket key = d.bucket key := by
    rw [bucket, hBuffer, bucket]
  have hKnown : d'.known = d.known := by
    unfold Document.known
    rw [hSeen, hBuffered, hBuffer]
  refine ⟨KeptBut.congr h.kept (by rw [hBuffer]) hBuffered hSeen, ?_, ?_, ?_⟩
  · rw [hKnown]
    exact h.known
  · rw [hBuffer]
    exact h.copies
  · cases h.stands with
    | filling unspent held => exact .filling (hResolved ▸ unspent) (hBucket ▸ held)
    | released spent empty tagged => exact .released (hResolved ▸ spent) (hBucket.trans empty) tagged

/-- Another group's key is spent. -/
theorem Brought.resolveTx (h : d.Brought key members past) {other : TxKey} (hApart : other ≠ key) :
    (d.resolveTx other).Brought key members past := by
  refine ⟨KeptBut.resolveTx h.kept other, ?_, ?_, ?_⟩
  · rw [known_resolveTx]
    exact h.known
  · intro op hOp m hm hId
    obtain ⟨held, hHeld, rfl | rfl⟩ := thins_resolveTx d other op hOp
    · exact h.copies _ hHeld m hm hId
    · obtain rfl | rfl := h.copies held hHeld m hm hId <;> exact .inr rfl
  · have hSame : key ∈ (d.resolveTx other).resolvedTx ↔ key ∈ d.resolvedTx := by
      rw [mem_resolvedTx_resolveTx]
      exact or_iff_right fun hKey => hApart hKey.symm
    obtain hBucket | ⟨hSpent, hEmpty⟩ := bucket_resolveTx d other key
    · cases h.stands with
      | filling unspent held =>
        refine .filling (fun hSpent => unspent (hSame.mp hSpent)) ?_
        rw [hBucket]
        exact held
      | released spent empty tagged =>
        exact .released (hSame.mpr spent) (hBucket.trans empty) tagged
    · cases h.stands with
      | filling unspent held => exact absurd (hSame.mp hSpent) unspent
      | released spent empty tagged => exact .released hSpent hEmpty tagged

/-- A new op: for a member it is one of the two envelopes, and only members have the tag. -/
structure Fresh (d : Document σ) (key : TxKey) (members : List Op) (op : Op) : Prop where
  unknown : op.id ∉ d.known
  envelope : ∀ m ∈ members, op.id = m.id → op = m ∨ op = m.untagged
  own : op.txKey = some key → op ∈ members

theorem Brought.known_append (h : d.Brought key members past) (op m : Op) (hm : m ∈ members) :
    m.id ∈ insert op.id d.known ↔ m.id ∈ (past ++ [op]).map Op.id := by
  rw [Finset.mem_insert, h.known m hm, List.map_append, List.mem_append, List.map_cons,
    List.map_nil, List.mem_singleton, or_comm]

/-- A member counts from its first copy on. -/
theorem Brought.tagsFirst_append_of_known (h : d.Brought key members past) (op : Op) {m : Op}
    (hm : m ∈ members) (hKnown : m.id ∈ d.known) :
    tagsFirst (past ++ [op]) m = tagsFirst past m := by
  rw [tagsFirst_append, if_pos ((h.known m hm).mp hKnown)]

theorem Brought.tagsFirst_of_unknown (h : d.Brought key members past) {m : Op} (hm : m ∈ members)
    (hUnknown : m.id ∉ d.known) : tagsFirst past m = false := by
  rw [Bool.eq_false_iff]
  exact fun hTags => hUnknown ((h.known m hm).mpr (arrived_of_tagsFirst hTags))

/-- The group after a new op under another tag or none. -/
theorem Brought.stands_of_apart (h : d.Brought key members past) (hGroup : GroupOf key members)
    {op : Op} (hFresh : d.Fresh key members op) (hApart : op.txKey ≠ some key)
    (hBucket : d'.bucket key = d.bucket key) (hResolved : d'.resolvedTx = d.resolvedTx) :
    d'.Stands key members (past ++ [op]) := by
  have hTags : ∀ m ∈ members, tagsFirst (past ++ [op]) m = tagsFirst past m := by
    intro m hm
    by_cases hKnown : m.id ∈ d.known
    · exact h.tagsFirst_append_of_known op hm hKnown
    · have hNone : op.id = m.id → op.tx = none := by
        intro hId
        obtain rfl | rfl := hFresh.envelope m hm hId
        · exact absurd (hGroup.tagged _ hm) hApart
        · rfl
      rw [tagsFirst_append, h.tagsFirst_of_unknown hm hKnown]
      split
      · rfl
      · rw [Bool.and_eq_false_imp, decide_eq_true_eq]
        intro hId
        rw [hNone hId]
        rfl
  cases h.stands with
  | filling unspent held =>
    refine .filling (hResolved ▸ unspent) ?_
    rw [hBucket, List.filter_congr hTags]
    exact held
  | released spent empty tagged =>
    exact .released (hResolved ▸ spent) (hBucket.trans empty) fun m hm =>
      (hTags m hm).trans (tagged m hm)

/-- The group after the first copy of a member came with the tag. -/
theorem Brought.stands_of_joined (h : d.Brought key members past) (hGroup : GroupOf key members)
    {op : Op} (hFresh : d.Fresh key members op) (hKey : op.txKey = some key)
    (hBucket : d'.bucket key = d.bucket key ++ [op]) (hResolved : d'.resolvedTx = d.resolvedTx) :
    d'.Stands key members (past ++ [op]) := by
  have hMember := hFresh.own hKey
  have hNot := h.tagsFirst_of_unknown hMember hFresh.unknown
  cases h.stands with
  | released spent empty tagged =>
    rw [tagged op hMember] at hNot
    cases hNot
  | filling unspent held =>
    refine .filling (hResolved ▸ unspent) ?_
    rw [hBucket]
    refine (held.append_right [op]).trans ?_
    have hOld : op ∉ members.filter (tagsFirst past) := by
      intro hOp
      rw [(List.mem_filter.mp hOp).2] at hNot
      cases hNot
    refine (List.perm_ext_iff_of_nodup ?_ (hGroup.nodup.filter _)).mpr ?_
    · rw [List.nodup_append]
      refine ⟨hGroup.nodup.filter _, List.nodup_singleton op, ?_⟩
      rintro other hOther _ hSame rfl
      exact hOld (List.mem_singleton.mp hSame ▸ hOther)
    · intro m
      rw [List.mem_append, List.mem_filter, List.mem_filter, List.mem_singleton]
      obtain ⟨tx, hTx, -⟩ := txKey_eq_some.mp hKey
      constructor
      · rintro (⟨hm, hTags⟩ | rfl)
        · refine ⟨hm, ?_⟩
          rw [h.tagsFirst_append_of_known op hm ((h.known m hm).mpr (arrived_of_tagsFirst hTags))]
          exact hTags
        · refine ⟨hMember, ?_⟩
          rw [tagsFirst_append, if_neg fun hArrived =>
            hFresh.unknown ((h.known m hMember).mpr hArrived)]
          simp [hTx]
      · rintro ⟨hm, hTags⟩
        by_cases hKnown : m.id ∈ d.known
        · rw [h.tagsFirst_append_of_known op hm hKnown] at hTags
          exact .inl ⟨hm, hTags⟩
        · rw [tagsFirst_append, if_neg fun hArrived => hKnown ((h.known m hm).mpr hArrived),
            Bool.and_eq_true, decide_eq_true_eq] at hTags
          exact .inr (hGroup.eq_of_id hm hMember hTags.1.symm)

theorem Brought.hold (h : d.Brought key members past) (hGroup : GroupOf key members) {op : Op}
    (hFresh : d.Fresh key members op) : (d.hold op).Brought key members (past ++ [op]) := by
  refine ⟨Kept.hold h.kept hFresh.unknown, ?_, ?_, ?_⟩
  · intro m hm
    rw [known_hold]
    exact h.known_append op m hm
  · intro other hOther m hm hId
    obtain hOld | hNew := List.mem_append.mp hOther
    · exact h.copies other hOld m hm hId
    · obtain rfl := List.mem_singleton.mp hNew
      exact hFresh.envelope m hm hId
  · by_cases hKey : op.txKey = some key
    · refine h.stands_of_joined hGroup hFresh hKey ?_ rfl
      rw [bucket_hold, if_pos hKey]
    · refine h.stands_of_apart hGroup hFresh hKey ?_ rfl
      rw [bucket_hold, if_neg hKey, List.append_nil]

end Arrivals

theorem Brought.applyNow (h : d.Brought key members past) (hGroup : GroupOf key members) {op : Op}
    (hFresh : d.Fresh key members op) (hTx : op.tx = none) :
    (d.applyNow op).Brought key members (past ++ [op]) := by
  refine ⟨Kept.applyNow h.kept hFresh.unknown, ?_, ?_, ?_⟩
  · intro m hm
    rw [known_applyNow]
    exact h.known_append op m hm
  · rw [buffer_applyNow]
    exact h.copies
  · refine h.stands_of_apart hGroup hFresh ?_ (bucket_applyNow ..) (resolvedTx_applyNow ..)
    rw [txKey_eq_none.mpr hTx]
    exact (Option.some_ne_none _).symm

/-- The drain releases the group if all its members came with the tag, and keeps it
waiting if not. -/
theorem Brought.drainBuffer (h : d.Brought key members past) (hGroup : GroupOf key members) :
    d.drainBuffer.Gathering key members past := by
  have hKept := Kept.drainBuffer h.kept
  have hKnown : ∀ m ∈ members, m.id ∈ d.drainBuffer.known ↔ m.id ∈ past.map Op.id := by
    rw [known_drainBuffer]
    exact h.known
  have hCopies : ∀ op ∈ d.drainBuffer.buffer, ∀ m ∈ members, op.id = m.id →
      op = m ∨ op = m.untagged := by
    intro op hOp m hm hId
    obtain ⟨held, hHeld, rfl | rfl⟩ := thins_drainBuffer d op hOp
    · exact h.copies _ hHeld m hm hId
    · obtain rfl | rfl := h.copies held hHeld m hm hId <;> exact .inr rfl
  cases h.stands with
  | released spent empty tagged =>
    have hSpent := (Releases.drainBuffer d).resolved spent
    refine ⟨⟨hKept, hKnown, hCopies, .released hSpent ?_ tagged⟩, fun _ => hSpent⟩
    obtain ⟨hPerm, -⟩ | ⟨-, hEmpty⟩ := (Releases.drainBuffer d).bucket key
    · rw [empty] at hPerm
      exact hPerm.eq_nil
    · exact hEmpty
  | filling unspent held =>
    have hSized : ∀ op ∈ d.bucket key, op.tx.map Tx.count = some members.length := by
      intro op hOp
      exact hGroup.sized op (List.mem_of_mem_filter (held.mem_iff.mp hOp))
    by_cases hAll : ∀ m ∈ members, tagsFirst past m = true
    · have hWhole : (d.bucket key).Perm members := by
        rw [List.filter_eq_self.mpr hAll] at held
        exact held
      have hSome : d.bucket key ≠ [] := by
        intro hNil
        rw [hNil] at hWhole
        exact hGroup.nonempty hWhole.nil_eq.symm
      obtain ⟨hSpent, hEmpty⟩ := spent_drainBuffer_of_full hSome (hWhole.length_eq ▸ hSized)
      exact ⟨⟨hKept, hKnown, hCopies, .released hSpent hEmpty hAll⟩, fun _ => hSpent⟩
    · have hFewer : (d.bucket key).length < members.length := by
        rw [held.length_eq]
        refine lt_of_le_of_ne (List.length_filter_le _ _) fun hSame => hAll ?_
        exact List.length_filter_eq_length_iff.mp hSame
      obtain ⟨hShort, hPerm⟩ := Short.drainBuffer ⟨unspent, hSized, hFewer⟩
      exact ⟨⟨hKept, hKnown, hCopies, .filling hShort.unspent (hPerm.trans held)⟩,
        fun hTagged => absurd hTagged hAll⟩

/-! ### A delivery -/

/-- A new op is taken in. -/
theorem Gathering.accept (h : d.Gathering key members past) (hGroup : GroupOf key members) {op : Op}
    (hFresh : d.Fresh key members op) : (d.accept op).Gathering key members (past ++ [op]) := by
  have hRecorded : (d.recordStamp op.stamp (span op.kind)).Brought key members past :=
    h.toBrought.congr (buffer_recordStamp ..) (buffered_recordStamp ..) (seen_recordStamp ..)
      (resolvedTx_recordStamp ..)
  have hStill : (d.recordStamp op.stamp (span op.kind)).Fresh key members op := by
    refine ⟨?_, hFresh.envelope, hFresh.own⟩
    rw [known_recordStamp]
    exact hFresh.unknown
  have hHeld := hRecorded.hold hGroup hStill
  unfold Document.accept
  split
  · exact hHeld.drainBuffer hGroup
  next hLone =>
    have hTx : op.tx = none := by simpa using hLone
    split
    · exact (h.toBrought.applyNow hGroup hFresh hTx).drainBuffer hGroup
    · refine ⟨hHeld, fun hAll => ?_⟩
      cases hHeld.stands with
      | released spent _ _ => exact spent
      | filling =>
        have hTagged : ∀ m ∈ members, tagsFirst past m = true := by
          intro m hm
          have hTags := hAll m hm
          rw [tagsFirst_append] at hTags
          split at hTags
          · exact hTags
          · rw [hTx] at hTags
            simp at hTags
        have hSpent : key ∈ d.resolvedTx := h.full hTagged
        rw [← resolvedTx_recordStamp d op.stamp (span op.kind)] at hSpent
        exact hSpent

omit [Folds σ] in
theorem Gathering.congr_past (h : d.Gathering key members past) {past' : List Op}
    (hArrived : ∀ m ∈ members, m.id ∈ past'.map Op.id ↔ m.id ∈ past.map Op.id)
    (hTags : ∀ m ∈ members, tagsFirst past' m = tagsFirst past m) :
    d.Gathering key members past' := by
  have hAll : (∀ m ∈ members, tagsFirst past' m = true) ↔ ∀ m ∈ members, tagsFirst past m = true :=
    forall₂_congr fun m hm => by rw [hTags m hm]
  refine ⟨⟨h.kept, fun m hm => (h.known m hm).trans (hArrived m hm).symm, h.copies, ?_⟩, fun hNew =>
    h.full (hAll.mp hNew)⟩
  cases h.stands with
  | filling unspent held =>
    refine .filling unspent ?_
    rw [List.filter_congr hTags]
    exact held
  | released spent empty tagged => exact .released spent empty (hAll.mpr tagged)

omit [Folds σ] in
/-- An op that is no copy of a member, or no first one, changes nothing for the group. -/
theorem Gathering.append_of_apart (h : d.Gathering key members past) {op : Op}
    (hApart : ∀ m ∈ members, op.id = m.id → m.id ∈ past.map Op.id) :
    d.Gathering key members (past ++ [op]) := by
  refine h.congr_past ?_ ?_
  · intro m hm
    rw [List.map_append, List.mem_append, List.map_cons, List.map_nil, List.mem_singleton]
    constructor
    · rintro (hOld | hSame)
      · exact hOld
      · exact hApart m hm hSame.symm
    · exact .inl
  · intro m hm
    rw [tagsFirst_append]
    split
    · rfl
    next hNew =>
      have hOther : op.id ≠ m.id := fun hSame => hNew (hApart m hm hSame)
      have hNever : tagsFirst past m = false := by
        rw [Bool.eq_false_iff]
        exact fun hTags => hNew (arrived_of_tagsFirst hTags)
      rw [hNever, decide_eq_false hOther, Bool.false_and]

/-- A second copy of a member changes nothing, whatever its envelope. -/
theorem Gathering.applyDuplicate_member (h : d.Gathering key members past) {op m : Op}
    (hm : m ∈ members) (hEnvelope : op = m ∨ op = m.untagged) : d.applyDuplicate op = d := by
  unfold Document.applyDuplicate
  split
  · rfl
  · split
    next tx held hTx hHeld =>
      obtain rfl | rfl := hEnvelope
      · obtain ⟨found, hFind, hFoundTx⟩ := Option.bind_eq_some_iff.mp hHeld
        have hFound := List.mem_of_find?_eq_some hFind
        have hId : found.id = op.id := by simpa using List.find?_some hFind
        obtain rfl | rfl := h.copies found hFound op hm hId
        · exact if_pos (Option.some.inj (hFoundTx.symm.trans hTx))
        · cases hFoundTx
      · cases hTx
    · rfl

/-- A second copy of any other op spends no key of this group. -/
theorem Gathering.applyDuplicate (h : d.Gathering key members past) (hGroup : GroupOf key members)
    {op : Op} (hApart : ∀ m ∈ members, op.id ≠ m.id) (hOwn : op.txKey ≠ some key) :
    (d.applyDuplicate op).Gathering key members past := by
  unfold Document.applyDuplicate
  split
  · exact h
  · split
    next tx held hTx hHeld =>
      split
      · exact h
      · obtain ⟨found, hFind, hFoundTx⟩ := Option.bind_eq_some_iff.mp hHeld
        have hFound := List.mem_of_find?_eq_some hFind
        have hId : found.id = op.id := by simpa using List.find?_some hFind
        have hFirst : (op.id.client, held.id) ≠ key := by
          intro hSame
          have hBucket : found ∈ d.bucket key :=
            mem_bucket.mpr ⟨hFound, txKey_eq_some.mpr ⟨held, hFoundTx, by rw [hId]; exact hSame⟩⟩
          cases h.stands with
          | filling _ held =>
            have hMember := List.mem_of_mem_filter (held.mem_iff.mp hBucket)
            exact hApart found hMember hId.symm
          | released _ empty _ =>
            rw [empty] at hBucket
            cases hBucket
        have hSecond : (op.id.client, tx.id) ≠ key := fun hSame =>
          hOwn (txKey_eq_some.mpr ⟨tx, hTx, hSame⟩)
        exact ((h.toBrought.resolveTx hFirst).resolveTx hSecond).drainBuffer hGroup
    · exact h

/-- Folding one op of the delivery. -/
theorem Gathering.apply (h : d.Gathering key members past) (hGroup : GroupOf key members) {op : Op}
    (hEnvelope : ∀ m ∈ members, op.id = m.id → op = m ∨ op = m.untagged)
    (hOwn : op.txKey = some key → op ∈ members) :
    (d.apply op).Gathering key members (past ++ [op]) := by
  unfold Document.apply
  split
  next hRefused =>
    refine h.append_of_apart fun m hm hId => ?_
    have hAdmissible : op.isAdmissible = true := by
      have hMember := hGroup.admissible m hm
      obtain rfl | rfl := hEnvelope m hm hId
      · exact hMember
      · unfold Op.isAdmissible at hMember ⊢
        rw [Bool.and_eq_true] at hMember
        exact Bool.and_eq_true_iff.mpr ⟨hMember.1, rfl⟩
    rw [hAdmissible] at hRefused
    cases hRefused
  · split
    next hHeld =>
      have hKnown : op.id ∈ d.known := (Kept.tracked h.kept).mem_known.mpr hHeld
      have hArrived : ∀ m ∈ members, op.id = m.id → m.id ∈ past.map Op.id := by
        intro m hm hId
        exact (h.known m hm).mp (hId ▸ hKnown)
      refine Gathering.append_of_apart ?_ hArrived
      by_cases hCopy : ∃ m ∈ members, op.id = m.id
      · obtain ⟨m, hm, hId⟩ := hCopy
        rw [h.applyDuplicate_member hm (hEnvelope m hm hId)]
        exact h
      · have hApart : ∀ m ∈ members, op.id ≠ m.id := fun m hm hId => hCopy ⟨m, hm, hId⟩
        refine h.applyDuplicate hGroup hApart fun hKey => ?_
        exact hApart op (hOwn hKey) rfl
    next hNew =>
      have hUnknown : op.id ∉ d.known := fun hKnown =>
        hNew ((Kept.tracked h.kept).mem_known.mp hKnown)
      have hErased : ({ d with reserved := d.reserved.erase op.id } : Document σ).Gathering key
          members past := ⟨h.toBrought.congr rfl rfl rfl rfl, h.full⟩
      -- A member is never the stray of its own group: that would need all of them to have come.
      have hStray : ∀ m ∈ members, op.id = m.id → d.destray op = op := by
        intro m hm hId
        obtain rfl | rfl := hEnvelope m hm hId
        · refine destray_of_open (hGroup.tagged _ hm) ?_
          cases h.stands with
          | filling unspent _ => exact unspent
          | released _ _ tagged =>
            exact absurd ((h.known _ hm).mpr (arrived_of_tagsFirst (tagged _ hm))) hUnknown
        · rfl
      have hFresh : ({ d with reserved := d.reserved.erase op.id } : Document σ).Fresh key members
          (d.destray op) := by
        refine ⟨?_, ?_, ?_⟩
        · rw [destray_id]
          exact hUnknown
        · intro m hm hId
          rw [destray_id] at hId
          rw [hStray m hm hId]
          exact hEnvelope m hm hId
        · intro hKey
          have hMember := hOwn (txKey_destray.mp hKey).1
          rw [hStray op hMember rfl]
          exact hMember
      refine (hErased.accept hGroup hFresh).congr_past ?_ ?_
      · intro m _
        simp only [List.map_append, List.map_cons, List.map_nil, destray_id]
      · intro m hm
        rw [tagsFirst_append, tagsFirst_append, destray_id]
        by_cases hId : op.id = m.id
        · rw [hStray m hm hId]
        · rw [decide_eq_false hId, Bool.false_and, Bool.false_and]

omit [Folds σ] in
theorem Unheard.gathering (h : d.Unheard key members) (hGroup : GroupOf key members) :
    d.Gathering key members [] := by
  have hNone : ∀ m ∈ members, tagsFirst [] m = false := fun m _ => rfl
  refine ⟨⟨h.kept, fun m hm => ?_, ?_, .filling h.unspent ?_⟩, fun hAll => ?_⟩
  · simp [h.unknown m hm]
  · intro op hOp m hm hId
    exact absurd (mem_known.mpr (.inr (.inr (hId ▸ List.mem_map_of_mem hOp)))) (h.unknown m hm)
  · rw [h.empty, List.filter_congr hNone]
    simp
  · obtain ⟨m, hm⟩ := List.exists_mem_of_ne_nil _ hGroup.nonempty
    cases hAll m hm

theorem Gathering.foldl_apply (h : d.Gathering key members past) (hGroup : GroupOf key members)
    (hDelivers : Delivers key members delivery) :
    (delivery.foldl Document.apply d).Gathering key members (past ++ delivery) := by
  induction delivery generalizing d past with
  | nil =>
    rw [List.append_nil]
    exact h
  | cons op delivery ih =>
    have hNow := h.apply hGroup (hDelivers.envelope op List.mem_cons_self)
      (hDelivers.own op List.mem_cons_self)
    have hAll := ih hNow hDelivers.tail
    rw [List.append_assoc] at hAll
    exact hAll

/-- A copy of a member under the group's tag; any other op as it is. -/
def retagged (members : List Op) (op : Op) : Op :=
  (members.find? fun m => m.id = op.id).getD op

omit [Folds σ] in
theorem retagged_of_id (hGroup : GroupOf key members) {op m : Op} (hm : m ∈ members)
    (hId : op.id = m.id) : retagged members op = m := by
  unfold retagged
  cases hFind : members.find? fun m => m.id = op.id with
  | none =>
    have hNot := List.find?_eq_none.mp hFind m hm
    exact absurd (decide_eq_true hId.symm) hNot
  | some found =>
    have hFound : found.id = op.id := by simpa using List.find?_some hFind
    exact hGroup.eq_of_id (List.mem_of_find?_eq_some hFind) hm (hFound.trans hId)

omit [Folds σ] in
theorem retagged_of_apart {op : Op} (h : ∀ m ∈ members, op.id ≠ m.id) : retagged members op = op := by
  unfold retagged
  have hFind : (members.find? fun m => m.id = op.id) = none := by
    apply List.find?_eq_none.mpr
    intro m hm hId
    exact h m hm (of_decide_eq_true hId).symm
  rw [hFind]
  rfl

/-- Where every first copy of a member carries the tag, the others might as well. -/
theorem Gathering.foldl_retagged (h : d.Gathering key members past) (hGroup : GroupOf key members)
    (hDelivers : Delivers key members delivery)
    (hTagged : ∀ m ∈ members, tagsFirst (past ++ delivery) m = true) :
    (delivery.map (retagged members)).foldl Document.apply d = delivery.foldl Document.apply d := by
  induction delivery generalizing d past with
  | nil => rfl
  | cons op delivery ih =>
    have hEnvelope := hDelivers.envelope op List.mem_cons_self
    have hNow := h.apply hGroup hEnvelope (hDelivers.own op List.mem_cons_self)
    have hSplit : past ++ op :: delivery = past ++ [op] ++ delivery := by simp
    rw [hSplit] at hTagged
    have hHead : d.apply (retagged members op) = d.apply op := by
      by_cases hCopy : ∃ m ∈ members, op.id = m.id
      · obtain ⟨m, hm, hId⟩ := hCopy
        rw [retagged_of_id hGroup hm hId]
        by_cases hArrived : m.id ∈ past.map Op.id
        · have hSecond : ∀ copy, copy = m ∨ copy = m.untagged → d.apply copy = d := by
            intro copy hCopy
            have hCopyId : copy.id = m.id := by obtain rfl | rfl := hCopy <;> rfl
            have hKnown : copy.id ∈ d.known := hCopyId ▸ (h.known m hm).mpr hArrived
            unfold Document.apply
            split
            · rfl
            · rw [if_pos ((Kept.tracked h.kept).mem_known.mp hKnown)]
              exact h.applyDuplicate_member hm hCopy
          rw [hSecond m (.inl rfl), hSecond op (hEnvelope m hm hId)]
        · obtain rfl | rfl := hEnvelope m hm hId
          · rfl
          · -- The first copy would be the untagged one.
            have hFirst := hTagged m hm
            have hOne : m.id ∈ (past ++ [m.untagged]).map Op.id := by simp
            have hUntagged : tagsFirst (past ++ [m.untagged]) m = false := by
              rw [tagsFirst_append, if_neg hArrived]
              exact Bool.and_false _
            have hKeeps : tagsFirst (past ++ [m.untagged] ++ delivery) m =
                tagsFirst (past ++ [m.untagged]) m := by
              unfold tagsFirst
              rw [List.find?_append]
              cases hFind : (past ++ [m.untagged]).find? fun op => op.id = m.id with
              | some found => rfl
              | none =>
                obtain ⟨first, hIn, hId⟩ := List.mem_map.mp hOne
                exact absurd (decide_eq_true hId) (List.find?_eq_none.mp hFind first hIn)
            rw [hKeeps, hUntagged] at hFirst
            cases hFirst
      · rw [retagged_of_apart fun m hm hId => hCopy ⟨m, hm, hId⟩]
    rw [List.map_cons, List.foldl_cons, List.foldl_cons, hHead]
    exact ih hNow hDelivers.tail hTagged

theorem bucket_evictPartialTransactions (d : Document σ) (key : TxKey) :
    d.evictPartialTransactions.bucket key = [] := by
  unfold Document.evictPartialTransactions
  dsimp only
  split
  next hNone =>
    apply List.filter_eq_nil_iff.mpr
    intro op hOp hKey
    have hMem : key ∈ d.buffer.filterMap Op.txKey :=
      List.mem_filterMap.mpr ⟨op, hOp, of_decide_eq_true hKey⟩
    rw [List.isEmpty_iff.mp hNone] at hMem
    cases hMem
  · obtain ⟨hPerm, -⟩ | ⟨-, hEmpty⟩ := (Releases.drainBuffer ({ d with
      buffer := d.buffer.map Op.untagged
      resolvedTx := d.resolvedTx ∪ (d.buffer.filterMap Op.txKey).toFinset } : Document σ)).bucket key
    · have hNone : ({ d with
          buffer := d.buffer.map Op.untagged
          resolvedTx := d.resolvedTx ∪ (d.buffer.filterMap Op.txKey).toFinset } :
            Document σ).bucket key = [] := by
        apply bucket_eq_nil_of_untagged
        intro op hOp
        obtain ⟨held, -, rfl⟩ := List.mem_map.mp hOp
        rfl
      rw [hNone] at hPerm
      exact hPerm.eq_nil
    · exact hEmpty

/-- Once every member has come, one is held for its group exactly if its own first copy
carried the tag and another member's did not. Where all the first copies carried it the
replica is the one that a delivery with no other envelopes leaves, and giving up on the
groups that wait always releases this one. -/
theorem held_iff_mixed (hGroup : GroupOf key members) (hDelivers : Delivers key members delivery)
    (hAll : ∀ m ∈ members, m.id ∈ delivery.map Op.id) (h : d.Unheard key members) :
    (∀ op, op ∈ (delivery.foldl apply d).bucket key ↔ op ∈ members ∧ tagsFirst delivery op = true ∧
        ∃ m ∈ members, tagsFirst delivery m = false) ∧
      (∀ m ∈ members, m.id ∈ (delivery.foldl apply d).seen ∨
        ∃ op ∈ (delivery.foldl apply d).buffer, op = m ∨ op = m.untagged) ∧
      ((∀ m ∈ members, tagsFirst delivery m = true) →
        (delivery.map (retagged members)).foldl apply d = delivery.foldl apply d) ∧
      (delivery.foldl apply d).evictPartialTransactions.bucket key = [] := by
  have hEnd := (h.gathering hGroup).foldl_apply hGroup hDelivers
  rw [List.nil_append] at hEnd
  refine ⟨?_, ?_, ?_, bucket_evictPartialTransactions _ key⟩
  · intro op
    cases hEnd.stands with
    | filling unspent held =>
      rw [held.mem_iff, List.mem_filter]
      have hMixed : ∃ m ∈ members, tagsFirst delivery m = false := by
        by_contra hNone
        refine unspent (hEnd.full fun m hm => ?_)
        by_contra hFalse
        exact hNone ⟨m, hm, Bool.eq_false_iff.mpr hFalse⟩
      rw [and_iff_left hMixed]
    | released spent empty tagged =>
      rw [empty]
      refine iff_of_false List.not_mem_nil ?_
      rintro ⟨-, -, m, hm, hFalse⟩
      rw [tagged m hm] at hFalse
      cases hFalse
  · intro m hm
    obtain hSeen | hHeld := (Kept.tracked hEnd.kept).mem_known.mp ((hEnd.known m hm).mpr (hAll m hm))
    · exact .inl hSeen
    · obtain ⟨op, hOp, hId⟩ := List.mem_map.mp (Kept.mem_buffered hEnd.kept |>.mp hHeld)
      exact .inr ⟨op, hOp, hEnd.copies op hOp m hm hId⟩
  · intro hTagged
    exact (h.gathering hGroup).foldl_retagged hGroup hDelivers hTagged

section Examples

local instance envelopeIdBytes : IdBytes := IdBytes.spelled
local instance envelopeTxDigest : TxDigest := ⟨List.sum⟩

theorem groupOf_pair : GroupOf (⟨1⟩, 7) [pairMember 1, pairMember 2] where
  nonempty := List.cons_ne_nil _ _
  ids := by decide
  tagged := by decide
  sized := by decide
  admissible := by decide

theorem unheard_new (client : ClientId) (content : Content) :
    (new client content).Unheard key members where
  kept := ⟨List.nodup_nil, fun id => by simp [new], fun id hId => absurd hId (by simp [new])⟩
  unspent := by simp [new]
  empty := rfl
  unknown m _ := by simp [known, new]

/-- Each member comes twice, first with the tag and then without it. -/
def pairTwice : List Op :=
  [pairMember 1, (pairMember 1).untagged, pairMember 2, (pairMember 2).untagged]

theorem held_iff_mixed_pairTwice :
    (pairTwice.foldl apply (new ⟨9⟩ Content.new)).bucket (⟨1⟩, 7) = [] := by
  have hDelivers : Delivers (⟨1⟩, 7) [pairMember 1, pairMember 2] pairTwice :=
    ⟨by decide, by decide⟩
  obtain ⟨hHeld, -⟩ := held_iff_mixed groupOf_pair hDelivers (by decide) (unheard_new ⟨9⟩ Content.new)
  apply List.eq_nil_iff_forall_not_mem.mpr
  intro op hOp
  obtain ⟨-, -, m, hm, hFalse⟩ := (hHeld op).mp hOp
  revert m
  decide

def innerChild : ElementId :=
  xmlChildId (XmlElement.childrenId (figureChild 5)) ⟨6, ⟨1⟩, 0⟩ .xmlElement

def innerRevealed : Document Content :=
  (new ⟨100⟩ Content.new).run
    [remoteOp ⟨9⟩ 1 ROOT_ID (.xmlElementCreate [102] [103]),
      remoteOp ⟨1⟩ 5 (XmlElement.childrenId figure) (.xmlInsertChild (some [112]) atRight),
      remoteOp ⟨9⟩ 7 ROOT_ID (.xmlReveal innerChild (some [112]))]

/-- A group that gives the inner child its birth and moves the outer one into it. -/
def birthAndMove : List Op :=
  [⟨⟨⟨1⟩, 8⟩, ⟨8, ⟨1⟩, 0⟩, XmlElement.childrenId innerChild, .xmlMove (figureChild 5) atRight,
      some ⟨7, 2⟩, none⟩,
    ⟨⟨⟨1⟩, 6⟩, ⟨6, ⟨1⟩, 0⟩, XmlElement.childrenId (figureChild 5),
      .xmlInsertChild (some [112]) atRight, some ⟨7, 2⟩, none⟩]

/-- A member that comes after an untagged one is held for good. And members that all
come untagged are folded as they come, not in seq order, so a move may be taken before
the birth that would have made it a cycle. -/
theorem mixed_envelopes_matter :
    ([(pairMember 1).untagged, pairMember 2, pairMember 1, (pairMember 2).untagged].foldl apply
        (new ⟨9⟩ Content.new)).bucket (⟨1⟩, 7) = [pairMember 2] ∧
      (birthAndMove.foldl apply innerRevealed).content.effectiveList (figureChild 5) ≠
        ((birthAndMove.map Op.untagged).foldl apply innerRevealed).content.effectiveList
          (figureChild 5) := by
  constructor
  · decide +kernel
  · decide +kernel

end Examples

end Document

end CrdtSync
