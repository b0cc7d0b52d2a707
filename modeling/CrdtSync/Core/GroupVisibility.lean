import CrdtSync.Core.GroupEnvelopes

/-!
# Atomic groups as they come in

At every boundary a group is untouched, or released up to what its members still wait
for. Beyond that a group only changes the order the ops are folded in: each is folded
once, at a content ready for it, whether its group brought it or it came alone.
-/

namespace CrdtSync

open Lib
open Std (ExtTreeMap)

def Content.foldOp [IdBytes] (c : Content) (op : Op) : Content :=
  Folds.applyKind c op.target op.kind op.stamp op.id.client

/-- The reservations on record once an op has arrived. -/
def noted (reach : ExtTreeMap ClientId Nat compare) (op : Op) : ExtTreeMap ClientId Nat compare :=
  if reservationEnd op.stamp (span op.kind) = 0 then reach
  else raiseTo reach op.stamp.client
    (min (reservationEnd op.stamp (span op.kind)) LAMPORT_STATE_CEILING)

instance : RightCommutative noted where
  right_comm reach op op' := by
    unfold noted
    split
    · rfl
    · split
      · rfl
      · exact raiseTo_comm ..

theorem noted_idem (reach : ExtTreeMap ClientId Nat compare) (op : Op) :
    noted (noted reach op) op = noted reach op := by
  unfold noted
  split
  · rfl
  · exact raiseTo_idem ..

/-- An op on record is noted already. -/
theorem noted_foldl_of_mem {ops : List Op} {op : Op} (h : op ∈ ops)
    (reach : ExtTreeMap ClientId Nat compare) :
    noted (ops.foldl noted reach) op = ops.foldl noted reach := by
  obtain ⟨before, after, rfl⟩ := List.append_of_mem h
  have hLast : (before ++ op :: after).Perm (before ++ after ++ [op]) :=
    List.perm_middle.trans (List.perm_append_singleton ..).symm
  rw [hLast.foldl_eq, List.foldl_append, List.foldl_cons, List.foldl_nil, noted_idem]

namespace Document

section Records

variable {σ : Type}

theorem recordStamp_eq_noted (d : Document σ) (op : Op) :
    d.recordStamp op.stamp (span op.kind) = { d with stampHighWater := noted d.stampHighWater op } := by
  unfold recordStamp noted
  dsimp only
  split <;> rfl

/-- The clock of an op's partition once it is applied. -/
def tick (d : Document σ) (op : Op) : Document σ :=
  d.advanceClock op.zone (min op.reservationEnd LAMPORT_WIRE_CEILING)

instance : RightCommutative (tick (σ := σ)) where
  right_comm d op op' := by
    unfold tick advanceClock
    cases op.zone with
    | none =>
      cases op'.zone with
      | none =>
        dsimp only
        rw [max_right_comm]
      | some zone => rfl
    | some zone =>
      cases op'.zone with
      | none => rfl
      | some other => exact congrArg (fun clocks => { d with zoneClocks := clocks }) (raiseTo_comm ..)

/-- The clocks move by the op alone. -/
theorem tick_congr {d d' : Document σ} (hLamport : d'.lamport = d.lamport)
    (hZones : d'.zoneClocks = d.zoneClocks) (op : Op) :
    (d'.tick op).lamport = (d.tick op).lamport ∧ (d'.tick op).zoneClocks = (d.tick op).zoneClocks := by
  unfold tick advanceClock
  cases op.zone with
  | none => exact ⟨congrArg (max · _) hLamport, hZones⟩
  | some zone =>
    refine ⟨hLamport, ?_⟩
    dsimp only
    rw [hZones]

variable [Folds σ]

/-- Applying an op that is on record. -/
theorem applyNow_eq (d : Document σ) (op : Op) : d.applyNow op =
    { d.tick op with
      seen := insert op.id d.seen
      stampHighWater := noted d.stampHighWater op
      content := Folds.applyKind d.content op.target op.kind op.stamp op.id.client } := by
  unfold applyNow applyKind
  dsimp only
  rw [recordStamp_eq_noted]
  unfold tick advanceClock
  cases op.zone <;> rfl

/-- Noting an op before it is applied makes no difference. -/
theorem applyNow_recordStamp (d : Document σ) (op : Op) :
    (d.recordStamp op.stamp (span op.kind)).applyNow op = d.applyNow op := by
  rw [applyNow_eq, applyNow_eq, recordStamp_eq_noted]
  dsimp only
  rw [noted_idem]
  unfold tick advanceClock
  cases op.zone <;> rfl

end Records

/-- `ops` fold from `c` to `c'` one by one, each at a content ready for it. -/
inductive Schedule [IdBytes] : Content → List Op → Content → Prop
  | nil (c : Content) : Schedule c [] c
  | cons {c c' : Content} {op : Op} {ops : List Op} (now : Folds.ready c op = true)
      (rest : Schedule (c.foldOp op) ops c') : Schedule c (op :: ops) c'

theorem Schedule.snoc [IdBytes] {c c' : Content} {op : Op} {ops : List Op} (h : Schedule c ops c')
    (hReady : Folds.ready c' op = true) : Schedule c (ops ++ [op]) (c'.foldOp op) := by
  induction h with
  | nil c => exact .cons hReady (.nil _)
  | cons now _ ih => exact .cons now (ih hReady)

section Delivered

variable [IdBytes] {start d d' : Document Content} {key : TxKey}
  {pool arrivals taken applied out out' : List Op}

/-- What has become of the ops taken in since `start`: `applied` folded one by one, the
others held or just taken out of the buffer, and all of them on record. -/
structure Reckons (start : Document Content) (taken applied : List Op) (d : Document Content)
    (out : List Op) : Prop where
  run : Schedule start.content applied d.content
  lone : ∀ op ∈ applied, op.tx = none
  lamport : d.lamport = (applied.foldl tick start).lamport
  zoneClocks : d.zoneClocks = (applied.foldl tick start).zoneClocks
  reach : d.stampHighWater = taken.foldl noted start.stampHighWater
  seen : d.seen = start.seen ∪ (applied.map Op.id).toFinset
  reserved : d.reserved = start.reserved \ (taken.map Op.id).toFinset
  split : (applied ++ (d.buffer ++ out).map Op.untagged).Perm (taken.map Op.untagged)
  copies : ∀ op ∈ d.buffer ++ out, ∃ m ∈ taken, op = m ∨ op = m.untagged

def Reckoned (start : Document Content) (taken : List Op) (d : Document Content)
    (out : List Op) : Prop := ∃ applied, Reckons start taken applied d out

namespace Reckons

/-- Only the envelopes changed, and who is held. -/
theorem rehold (h : Reckons start taken applied d out)
    (hSame : { d' with buffer := d.buffer, buffered := d.buffered, resolvedTx := d.resolvedTx } = d)
    (hPerm : ((d'.buffer ++ out').map Op.untagged).Perm ((d.buffer ++ out).map Op.untagged))
    (hCopies : ∀ op ∈ d'.buffer ++ out', ∃ held ∈ d.buffer ++ out, op = held ∨ op = held.untagged) :
    Reckons start taken applied d' out' where
  run := (congrArg (fun d : Document Content => d.content) hSame) ▸ h.run
  lone := h.lone
  lamport := (congrArg (fun d : Document Content => d.lamport) hSame).trans h.lamport
  zoneClocks := (congrArg (fun d : Document Content => d.zoneClocks) hSame).trans h.zoneClocks
  reach := (congrArg (fun d : Document Content => d.stampHighWater) hSame).trans h.reach
  seen := (congrArg (fun d : Document Content => d.seen) hSame).trans h.seen
  reserved := (congrArg (fun d : Document Content => d.reserved) hSame).trans h.reserved
  split := (hPerm.append_left applied).trans h.split
  copies op hOp := by
    obtain ⟨held, hHeld, hEnvelope⟩ := hCopies op hOp
    obtain ⟨m, hm, hCopy⟩ := h.copies held hHeld
    refine ⟨m, hm, ?_⟩
    obtain rfl | rfl := hEnvelope
    · exact hCopy
    · obtain rfl | rfl := hCopy <;> exact .inr rfl

theorem untagResolved (h : Reckons start taken applied d out) :
    Reckons start taken applied d.untagResolved out := by
  refine h.rehold rfl ?_ ?_
  · have hUntagged : ∀ op, (d.destray op).untagged = op.untagged := by
      intro op
      unfold destray
      split
      · split <;> rfl
      · rfl
    simp [Document.untagResolved, Function.comp_def, hUntagged]
  · intro op hOp
    obtain hBuffer | hOut := List.mem_append.mp hOp
    · obtain ⟨held, hHeld, hEnvelope⟩ := thins_untagResolved d op hBuffer
      exact ⟨held, List.mem_append_left _ hHeld, hEnvelope⟩
    · exact ⟨op, List.mem_append_right _ hOut, .inl rfl⟩

theorem resolveTx (h : Reckons start taken applied d out) (key : TxKey) :
    Reckons start taken applied (d.resolveTx key) out := by
  unfold Document.resolveTx
  split
  · exact h
  · have hSpent : Reckons start taken applied
        ({ d with resolvedTx := insert key d.resolvedTx } : Document Content) out :=
      h.rehold rfl (.refl _) fun op hOp => ⟨op, hOp, .inl rfl⟩
    exact hSpent.untagResolved

theorem takeOut (h : Reckons start taken applied d []) {rest : List Op}
    (hPerm : (out ++ rest).Perm d.buffer) :
    Reckons start taken applied ({ d with buffer := rest } : Document Content) out := by
  have hSame : (rest ++ out).Perm (d.buffer ++ []) := by
    rw [List.append_nil]
    exact List.perm_append_comm.trans hPerm
  exact h.rehold rfl (hSame.map _) fun op hOp => ⟨op, hSame.mem_iff.mp hOp, .inl rfl⟩

/-- An op just taken out loses its tag. -/
theorem retag {op stray : Op} (h : Reckons start taken applied d (op :: out))
    (hStray : stray = op ∨ stray = op.untagged) : Reckons start taken applied d (stray :: out) := by
  have hUntagged : stray.untagged = op.untagged := by
    obtain rfl | rfl := hStray <;> rfl
  refine h.rehold rfl ?_ ?_
  · rw [List.map_append, List.map_append, List.map_cons, List.map_cons, hUntagged]
  · intro other hOther
    rw [List.mem_append, List.mem_cons] at hOther
    obtain hOld | rfl | hOut := hOther
    · exact ⟨other, List.mem_append_left _ hOld, .inl rfl⟩
    · exact ⟨op, by simp, hStray⟩
    · exact ⟨other, by simp [hOut], .inl rfl⟩

theorem holdOut {op : Op} (h : Reckons start taken applied d (op :: out)) :
    Reckons start taken applied (d.hold op) out := by
  have hMoved : ((d.hold op).buffer ++ out).Perm (d.buffer ++ op :: out) := by
    simp [hold]
  exact h.rehold rfl (hMoved.map _) fun other hOther => ⟨other, hMoved.mem_iff.mp hOther, .inl rfl⟩

theorem applyOut {op : Op} (h : Reckons start taken applied d (op :: out))
    (hReady : Folds.ready d.content op = true) (held : Finset OpId) :
    Reckons start taken (applied ++ [op.untagged])
      (({ d with buffered := held } : Document Content).applyNow op) out := by
  obtain ⟨m, hm, hCopy⟩ := h.copies op (by simp)
  have hNoted : noted d.stampHighWater op = d.stampHighWater := by
    rw [h.reach]
    obtain rfl | rfl := hCopy
    · exact noted_foldl_of_mem hm _
    · exact noted_foldl_of_mem hm _
  have hTick := tick_congr h.lamport h.zoneClocks op
  have hFields : (({ d with buffered := held } : Document Content).tick op).buffer = d.buffer ∧
      (({ d with buffered := held } : Document Content).tick op).reserved = d.reserved ∧
      (({ d with buffered := held } : Document Content).tick op).lamport = (d.tick op).lamport ∧
      (({ d with buffered := held } : Document Content).tick op).zoneClocks =
        (d.tick op).zoneClocks := by
    unfold tick advanceClock
    cases op.zone <;> exact ⟨rfl, rfl, rfl, rfl⟩
  obtain ⟨hBuffer, hReserved, hLamport, hZones⟩ := hFields
  rw [applyNow_eq]
  refine ⟨h.run.snoc hReady, ?_, ?_, ?_, ?_, ?_, ?_, ?_, ?_⟩
  · intro other hOther
    obtain hOld | hNew := List.mem_append.mp hOther
    · exact h.lone other hOld
    · rw [List.mem_singleton.mp hNew]
      rfl
  · rw [List.foldl_append]
    exact hLamport.trans hTick.1
  · rw [List.foldl_append]
    exact hZones.trans hTick.2
  · exact hNoted.trans h.reach
  · dsimp only
    rw [h.seen]
    ext id
    simp only [Finset.mem_insert, Finset.mem_union, List.mem_toFinset, List.map_append,
      List.mem_append, List.map_cons, List.map_nil, List.mem_singleton, Op.untagged_id]
    tauto
  · exact hReserved.trans h.reserved
  · dsimp only
    rw [hBuffer]
    refine List.Perm.trans ?_ h.split
    rw [List.append_assoc, List.map_append, List.map_append, List.map_cons, List.singleton_append]
    exact List.Perm.append_left applied List.perm_middle.symm
  · dsimp only
    rw [hBuffer]
    intro other hOther
    apply h.copies other
    obtain hOld | hOut := List.mem_append.mp hOther
    · exact List.mem_append_left _ hOld
    · exact List.mem_append_right _ (List.mem_cons_of_mem _ hOut)

/-- A new op is noted before it is held or applied. -/
theorem bring (h : Reckons start taken applied d []) (op : Op) :
    Reckons start (taken ++ [op]) applied
      (({ d with reserved := d.reserved.erase op.id } : Document Content).recordStamp op.stamp
        (span op.kind)) [op] := by
  rw [recordStamp_eq_noted]
  refine ⟨h.run, h.lone, h.lamport, h.zoneClocks, ?_, h.seen, ?_, ?_, ?_⟩
  · rw [List.foldl_append]
    exact congrArg (noted · op) h.reach
  · dsimp only
    rw [h.reserved]
    ext id
    simp only [Finset.mem_erase, Finset.mem_sdiff, List.mem_toFinset, List.map_append,
      List.mem_append, List.map_cons, List.map_nil, List.mem_singleton]
    tauto
  · have hSplit := h.split.append_right [op.untagged]
    simpa using hSplit
  · intro other hOther
    obtain hOld | hNew := List.mem_append.mp hOther
    · obtain ⟨m, hm, hCopy⟩ := h.copies other (List.mem_append_left _ hOld)
      exact ⟨m, List.mem_append_left _ hm, hCopy⟩
    · exact ⟨op, by simp, .inl (List.mem_singleton.mp hNew)⟩

theorem commitMember {op : Op} (h : Reckons start taken applied d (op :: out)) :
    Reckoned start taken (d.commitMember op) out := by
  unfold Document.commitMember
  split
  next hReady => exact ⟨_, h.applyOut hReady _⟩
  next => exact ⟨_, (h.retag (.inr rfl)).holdOut⟩

theorem foldl_commitMember (h : Reckons start taken applied d out) :
    Reckoned start taken (out.foldl Document.commitMember d) [] := by
  induction out generalizing d applied with
  | nil => exact ⟨applied, h⟩
  | cons op out ih =>
    obtain ⟨_, hNext⟩ := h.commitMember
    exact ih hNext

theorem commitGroup (h : Reckons start taken applied d []) (key : TxKey) :
    Reckoned start taken (d.commitGroup key) [] := by
  unfold Document.commitGroup
  dsimp only
  apply foldl_commitMember
  apply resolveTx
  apply h.takeOut
  have hMembers : ((d.bucket key).reverse.insertionSort fun a b => a.id.seq ≤ b.id.seq).Perm
      (d.bucket key) := (List.perm_insertionSort _ _).trans (List.reverse_perm _)
  refine (hMembers.append_right _).trans ?_
  have hSplit := List.filter_append_perm (fun op : Op => decide (op.txKey = some key)) d.buffer
  simpa only [bucket, ne_eq, decide_not] using hSplit

theorem drainStep (h : Reckons start taken applied d []) (hStep : d.drainStep = some d') :
    Reckoned start taken d' [] := by
  obtain ⟨op, rest, -, -, hReady, hPerm, rfl⟩ | ⟨-, rfl⟩ | ⟨key, -, rfl⟩ := drainStep_cases hStep
  · have hOut : Reckons start taken applied ({ d with buffer := rest } : Document Content) [op] :=
      h.takeOut hPerm
    exact ⟨_, hOut.applyOut hReady _⟩
  · have hSpent : Reckons start taken applied
        ({ d with resolvedTx := d.resolvedTx ∪ d.disagreeing.toFinset } : Document Content) [] :=
      h.rehold rfl (.refl _) fun op hOp => ⟨op, hOp, .inl rfl⟩
    exact ⟨_, hSpent.untagResolved⟩
  · exact h.commitGroup key

end Reckons

namespace Reckoned

theorem drainBuffer (h : Reckoned start taken d []) : Reckoned start taken d.drainBuffer [] := by
  refine drainLoop_induct (P := fun d => Reckoned start taken d []) ?_ h _
  rintro d d' ⟨applied, hNow⟩ hStep
  exact hNow.drainStep hStep

theorem applyDuplicate (h : Reckoned start taken d []) (op : Op) :
    Reckoned start taken (d.applyDuplicate op) [] := by
  unfold Document.applyDuplicate
  split
  · exact h
  · split
    · split
      · exact h
      · obtain ⟨applied, hNow⟩ := h
        exact drainBuffer ⟨_, (hNow.resolveTx _).resolveTx _⟩
    · exact h

/-- An op that was not on record is from now on. -/
theorem accept (h : Reckoned start taken d []) {op stray : Op}
    (hStray : stray = op ∨ stray = op.untagged) : Reckoned start (taken ++ [op])
      (({ d with reserved := d.reserved.erase op.id } : Document Content).accept stray) [] := by
  obtain ⟨applied, hNow⟩ := h
  have hBrought := (hNow.bring op).retag hStray
  have hRecord : op.stamp = stray.stamp ∧ op.kind = stray.kind := by
    obtain rfl | rfl := hStray <;> exact ⟨rfl, rfl⟩
  rw [hRecord.1, hRecord.2] at hBrought
  unfold Document.accept
  split
  · exact drainBuffer ⟨_, hBrought.holdOut⟩
  · split
    next hReady =>
      rw [← applyNow_recordStamp]
      apply drainBuffer
      refine ⟨_, hBrought.applyOut ?_ _⟩
      rw [recordStamp_eq_noted]
      exact hReady
    next => exact ⟨_, hBrought.holdOut⟩

theorem apply (h : Reckoned start taken d []) {op : Op} (hOp : op.isAdmissible) :
    Reckoned start (if op.id ∈ d.seen ∨ op.id ∈ d.buffered then taken else taken ++ [op])
      (d.apply op) [] := by
  have hTaken : d.apply op = if op.id ∈ d.seen ∨ op.id ∈ d.buffered then d.applyDuplicate op
      else ({ d with reserved := d.reserved.erase op.id } : Document Content).accept (d.destray op) :=
    if_neg (by simp [hOp])
  rw [hTaken]
  split
  · exact h.applyDuplicate op
  · apply h.accept
    unfold destray
    split
    · split
      · exact .inr rfl
      · exact .inl rfl
    · exact .inl rfl

end Reckoned

/-! ### Honest groups, from a replica where nothing waits -/

/-- Ops whose groups are whole: each member declares how many there are. -/
structure Honest (pool : List Op) : Prop where
  ids : (pool.map Op.id).Nodup
  admissible : ∀ op ∈ pool, op.isAdmissible
  sized : ∀ key, ∀ op ∈ membersOf key pool, op.tx.map Tx.count = some (membersOf key pool).length

/-- Nothing waits, and nothing of the pool has arrived. -/
structure Clear (start : Document Content) (pool : List Op) : Prop where
  buffer : start.buffer = []
  buffered : start.buffered = ∅
  unseen : ∀ op ∈ pool, op.id ∉ start.seen
  unspent : ∀ op ∈ pool, ∀ key, op.txKey = some key → key ∉ start.resolvedTx

section Pools

omit [IdBytes]

theorem Honest.eq_of_id (h : Honest pool) {op op' : Op} (hOp : op ∈ pool) (hOp' : op' ∈ pool)
    (hId : op.id = op'.id) : op = op' :=
  List.inj_on_of_nodup_map h.ids hOp hOp' hId

theorem Honest.groupOf (h : Honest pool) {op : Op} (hOp : op ∈ membersOf key pool) :
    GroupOf key (membersOf key pool) where
  nonempty := List.ne_nil_of_mem hOp
  ids := h.ids.sublist (List.filter_sublist.map _)
  tagged _ hm := (mem_membersOf.mp hm).2
  sized := h.sized key
  admissible m hm := h.admissible m (mem_membersOf.mp hm).1

theorem Honest.delivers (h : Honest pool) (hPool : ∀ op ∈ arrivals, op ∈ pool) (key : TxKey) :
    Delivers key (membersOf key pool) arrivals where
  envelope op hOp _ hm hId := .inl (h.eq_of_id (hPool op hOp) (mem_membersOf.mp hm).1 hId)
  own op hOp hKey := mem_membersOf.mpr ⟨hPool op hOp, hKey⟩

theorem Clear.known (h : start.Clear pool) : start.known = start.seen := by
  unfold Document.known
  rw [h.buffer, h.buffered]
  simp

theorem Clear.kept (h : start.Clear pool) : start.Kept := by
  refine ⟨?_, ?_, ?_⟩
  · simp [h.buffer]
  · simp [h.buffer, h.buffered]
  · simp [h.buffered]

theorem Clear.unheard (h : start.Clear pool) {op : Op} (hOp : op ∈ membersOf key pool) :
    start.Unheard key (membersOf key pool) where
  kept := h.kept
  unspent := h.unspent op (mem_membersOf.mp hOp).1 key (mem_membersOf.mp hOp).2
  empty := by rw [bucket, h.buffer, List.filter_nil]
  unknown m hm := by
    rw [h.known]
    exact h.unseen m (mem_membersOf.mp hm).1

end Pools

theorem Clear.drained (h : start.Clear pool) : start.Drained := by
  refine ⟨?_, ?_, ?_⟩
  · simp [h.buffer]
  · simp [bucket, h.buffer]
  · simp [h.buffer]

theorem Clear.reckons (h : start.Clear pool) : Reckons start [] [] start [] where
  run := .nil _
  lone := fun _ hOp => absurd hOp List.not_mem_nil
  lamport := rfl
  zoneClocks := rfl
  reach := rfl
  seen := by simp
  reserved := by simp
  split := by simp [h.buffer]
  copies := by simp [h.buffer]

theorem drained_foldl_apply (h : d.Drained) (arrivals : List Op) :
    (arrivals.foldl apply d).Drained := by
  induction arrivals generalizing d with
  | nil => exact h
  | cons op arrivals ih => exact ih (h.apply op)

theorem Clear.gathering (hClear : start.Clear pool) (hHonest : Honest pool) {m : Op}
    (hm : m ∈ membersOf key pool) (hPool : ∀ op ∈ arrivals, op ∈ pool) :
    (arrivals.foldl apply start).Gathering key (membersOf key pool) arrivals := by
  have hGroup := hHonest.groupOf hm
  have hEnd := ((hClear.unheard hm).gathering hGroup).foldl_apply hGroup (hHonest.delivers hPool key)
  rw [List.nil_append] at hEnd
  exact hEnd

omit [IdBytes] in
theorem tagsFirst_of_arrived (hHonest : Honest pool) (hPool : ∀ op ∈ arrivals, op ∈ pool) {m : Op}
    (hm : m ∈ membersOf key pool) (hArrived : m.id ∈ arrivals.map Op.id) :
    tagsFirst arrivals m = true := by
  obtain ⟨hMember, hKey⟩ := mem_membersOf.mp hm
  unfold tagsFirst
  cases hFind : arrivals.find? fun op => op.id = m.id with
  | none =>
    obtain ⟨first, hFirst, hId⟩ := List.mem_map.mp hArrived
    exact absurd (decide_eq_true hId) (List.find?_eq_none.mp hFind first hFirst)
  | some found =>
    have hId : found.id = m.id := by simpa using List.find?_some hFind
    obtain rfl := hHonest.eq_of_id (hPool found (List.mem_of_find?_eq_some hFind)) hMember hId
    obtain ⟨tx, hTx, -⟩ := txKey_eq_some.mp hKey
    simp [hTx]

/-- A group is untouched, or each of its members is applied or waits, untagged, for its
own target. -/
theorem Clear.visible (hClear : start.Clear pool) (hHonest : Honest pool)
    (hPool : ∀ op ∈ arrivals, op ∈ pool) (key : TxKey) :
    (∀ m ∈ membersOf key pool, m.id ∉ (arrivals.foldl apply start).seen) ∨
      ∀ m ∈ membersOf key pool, m.id ∈ (arrivals.foldl apply start).seen ∨
        m.untagged ∈ (arrivals.foldl apply start).buffer ∧
          Folds.ready (arrivals.foldl apply start).content m = false := by
  have hDrained := drained_foldl_apply hClear.drained arrivals
  cases hMembers : membersOf key pool with
  | nil => exact .inl fun _ hm => absurd hm List.not_mem_nil
  | cons first rest =>
  rw [← hMembers]
  have hFirst : first ∈ membersOf key pool := hMembers ▸ List.mem_cons_self
  have hEnd := hClear.gathering hHonest hFirst hPool
  generalize hd : arrivals.foldl apply start = d at hEnd hDrained
  cases hEnd.stands with
  | filling unspent held =>
    left
    intro m hm hSeen
    have hKnown : m.id ∈ d.known := mem_known.mpr (.inl hSeen)
    have hTags := tagsFirst_of_arrived hHonest hPool hm ((hEnd.known m hm).mp hKnown)
    have hBucket := held.mem_iff.mpr (List.mem_filter.mpr ⟨hm, hTags⟩)
    have hBuffered := (Kept.mem_buffered hEnd.kept).mpr
      (List.mem_map_of_mem (mem_bucket.mp hBucket).1)
    exact KeptBut.apart hEnd.kept m.id hBuffered hSeen
  | released spent empty tagged =>
    right
    intro m hm
    have hKnown := (hEnd.known m hm).mpr (arrived_of_tagsFirst (tagged m hm))
    obtain hSeen | hHeld := (Kept.tracked hEnd.kept).mem_known.mp hKnown
    · exact .inl hSeen
    · right
      obtain ⟨op, hOp, hId⟩ := List.mem_map.mp (Kept.mem_buffered hEnd.kept |>.mp hHeld)
      obtain rfl | rfl := hEnd.copies op hOp m hm hId
      · have hBucket := mem_bucket.mpr ⟨hOp, (mem_membersOf.mp hm).2⟩
        rw [empty] at hBucket
        cases hBucket
      · exact ⟨hOp, hDrained.waits m.untagged hOp rfl⟩

/-! ### The end of a delivery -/

/-- The ops a delivery brought, each once. -/
theorem Clear.brought (hClear : start.Clear pool) (hHonest : Honest pool)
    (hPool : ∀ op ∈ arrivals, op ∈ pool) :
    ∃ taken, Reckoned start taken (arrivals.foldl apply start) [] ∧ (taken.map Op.id).Nodup ∧
      (∀ op ∈ taken, op ∈ arrivals) ∧ ∀ op ∈ arrivals, op.id ∈ taken.map Op.id := by
  induction arrivals using List.reverseRecOn with
  | nil => exact ⟨[], ⟨[], hClear.reckons⟩, .nil, fun _ hOp => hOp, fun _ hOp => absurd hOp List.not_mem_nil⟩
  | append_singleton arrivals op ih =>
    have hOld : ∀ other ∈ arrivals, other ∈ pool := fun other hOther =>
      hPool other (List.mem_append_left _ hOther)
    obtain ⟨taken, hReckoned, hNodup, hArrived, hTaken⟩ := ih hOld
    have hMember := hPool op (List.mem_append_right _ List.mem_cons_self)
    have hKnown : op.id ∈ (arrivals.foldl apply start).known ↔ op.id ∈ arrivals.map Op.id := by
      rw [known_foldl_apply fun other hOther => hHonest.admissible other (hOld other hOther),
        hClear.known, Finset.mem_union, List.mem_toFinset]
      exact or_iff_right (hClear.unseen op hMember)
    rw [(kept_foldl_apply hClear.kept arrivals).tracked.mem_known] at hKnown
    rw [List.foldl_append, List.foldl_cons, List.foldl_nil]
    have hNext := hReckoned.apply (hHonest.admissible op hMember)
    split at hNext
    next hHeld =>
      refine ⟨taken, hNext, hNodup, fun other hOther => List.mem_append_left _ (hArrived other hOther),
        fun other hOther => ?_⟩
      obtain hBefore | hLast := List.mem_append.mp hOther
      · exact hTaken other hBefore
      · obtain ⟨first, hFirst, hId⟩ := List.mem_map.mp (hKnown.mp hHeld)
        rw [List.mem_singleton.mp hLast, ← hId]
        exact hTaken first hFirst
    next hNew =>
      refine ⟨taken ++ [op], hNext, ?_, ?_, ?_⟩
      · rw [List.map_append, List.nodup_append]
        refine ⟨hNodup, List.nodup_singleton _, ?_⟩
        rintro id hId other hOther rfl
        rw [List.map_cons, List.map_nil, List.mem_singleton] at hOther
        obtain ⟨first, hFirst, hSame⟩ := List.mem_map.mp hId
        exact hNew (hKnown.mpr (List.mem_map.mpr ⟨first, hArrived first hFirst, hSame.trans hOther⟩))
      · intro other hOther
        obtain hBefore | hLast := List.mem_append.mp hOther
        · exact List.mem_append_left _ (hArrived other hBefore)
        · exact List.mem_append_right _ hLast
      · intro other hOther
        rw [List.map_append]
        obtain hBefore | hLast := List.mem_append.mp hOther
        · exact List.mem_append_left _ (hTaken other hBefore)
        · exact List.mem_append_right _ (List.mem_map_of_mem hLast)

/-- Once the whole pool has arrived no group waits, and what waits is not ready. -/
theorem Clear.settled (hClear : start.Clear pool) (hHonest : Honest pool)
    (hPool : ∀ op ∈ arrivals, op ∈ pool) (hAll : ∀ op ∈ pool, op ∈ arrivals) :
    ∃ taken applied, Reckons start taken applied (arrivals.foldl apply start) [] ∧
      taken.Perm pool ∧ applied.Nodup ∧
      ∀ op ∈ (arrivals.foldl apply start).buffer, op.tx = none ∧
        Folds.ready (arrivals.foldl apply start).content op = false := by
  obtain ⟨taken, ⟨applied, hReckons⟩, hNodup, hArrived, hTaken⟩ := hClear.brought hHonest hPool
  have hPerm : taken.Perm pool := by
    refine (List.perm_ext_iff_of_nodup (.of_map _ hNodup) (.of_map _ hHonest.ids)).mpr fun op => ?_
    constructor
    · exact fun hOp => hPool op (hArrived op hOp)
    · intro hOp
      obtain ⟨other, hOther, hId⟩ := List.mem_map.mp (hTaken op (hAll op hOp))
      rw [← hHonest.eq_of_id (hPool other (hArrived other hOther)) hOp hId]
      exact hOther
  refine ⟨taken, applied, hReckons, hPerm, ?_, ?_⟩
  · have hIds : ((applied ++ ((arrivals.foldl apply start).buffer ++ []).map Op.untagged).map
        Op.id).Nodup := by
      rw [(hReckons.split.map Op.id).nodup_iff, List.map_map]
      exact hNodup
    rw [List.map_append, List.nodup_append] at hIds
    exact .of_map _ hIds.1
  · intro op hOp
    have hTx : op.tx = none := by
      cases hKey : op.txKey with
      | none => exact txKey_eq_none.mp hKey
      | some key =>
        obtain ⟨m, hm, rfl | rfl⟩ := hReckons.copies op (List.mem_append_left _ hOp)
        · have hMember := mem_membersOf.mpr ⟨hPerm.mem_iff.mp hm, hKey⟩
          have hEnd := hClear.gathering hHonest hMember hPool
          have hBucket := mem_bucket.mpr ⟨hOp, hKey⟩
          cases hEnd.stands with
          | filling unspent _ =>
            refine absurd (hEnd.full fun other hOther => ?_) unspent
            apply tagsFirst_of_arrived hHonest hPool hOther
            exact List.mem_map_of_mem (hAll other (mem_membersOf.mp hOther).1)
          | released _ empty _ =>
            rw [empty] at hBucket
            cases hBucket
        · rfl
    exact ⟨hTx, (drained_foldl_apply hClear.drained arrivals).waits op hOp hTx⟩

end Delivered

section Examples

local instance visibilityIdBytes : IdBytes := IdBytes.spelled

/-- A group that creates a map and writes in it. -/
def createAndFill : List Op :=
  [⟨⟨⟨1⟩, 1⟩, ⟨1, ⟨1⟩, 0⟩, ROOT_ID, .mapCreate [109], some ⟨7, 2⟩, none⟩,
    ⟨⟨⟨1⟩, 2⟩, ⟨2, ⟨1⟩, 0⟩, .derive ROOT_ID [109] .map, .mapSet [107] (.int 1), some ⟨7, 2⟩, none⟩]

end Examples

end Document

end CrdtSync
