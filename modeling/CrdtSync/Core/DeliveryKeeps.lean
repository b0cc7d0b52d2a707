import CrdtSync.Core.MintFreshness

/-!
# What delivery carries

A property of the content, the clocks and the dedup set that applying an op keeps is kept by all of
delivery: what is held, released, evicted or read back is applied one op at a time, and the rest is
bookkeeping.
-/

namespace CrdtSync

namespace Document

variable {σ : Type} {d d' d'' : Document σ} {P : Document σ → Prop} {C : Op → Prop}

/-- Nothing was applied: only bookkeeping differs. -/
structure SameFolds (d d' : Document σ) : Prop where
  content : d'.content = d.content
  seen : d'.seen = d.seen
  clock : ∀ zone, d'.clock zone = d.clock zone

theorem SameFolds.refl (d : Document σ) : SameFolds d d := ⟨rfl, rfl, fun _ => rfl⟩

/-- Everything but the content, the dedup set and the clocks may differ. -/
theorem sameFolds_of (d : Document σ) {d' : Document σ} (hContent : d'.content = d.content)
    (hSeen : d'.seen = d.seen) (hLamport : d'.lamport = d.lamport)
    (hZones : d'.zoneClocks = d.zoneClocks) : SameFolds d d' := by
  refine ⟨hContent, hSeen, fun zone => ?_⟩
  cases zone with
  | none => exact hLamport
  | some zone => exact congrArg (fun clocks => clocks[zone]?.getD 0) hZones

theorem sameFolds_recordStamp (d : Document σ) (stamp : Stamp) (n : Nat) :
    SameFolds d (d.recordStamp stamp n) := by
  unfold recordStamp
  dsimp only
  split
  · exact .refl d
  · exact sameFolds_of d rfl rfl rfl rfl

theorem sameFolds_resolveTx (d : Document σ) (key : TxKey) : SameFolds d (d.resolveTx key) := by
  unfold resolveTx
  split
  · exact .refl d
  · exact sameFolds_of d rfl rfl rfl rfl

/-- `P` holds, and every op that waits meets `C`. -/
def Upholds (P : Document σ → Prop) (C : Op → Prop) (d : Document σ) : Prop :=
  P d ∧ ∀ op ∈ d.buffer, C op

variable [Folds σ]

/-- Applying an op that meets `C` keeps `P`, which bookkeeping does not touch. -/
structure Carried (P : Document σ → Prop) (C : Op → Prop) : Prop where
  congr : ∀ {d d'}, SameFolds d d' → P d → P d'
  untagged : ∀ {op}, C op → C op.untagged
  applyNow : ∀ {d op}, P d → C op → P (d.applyNow op)

namespace Carried

theorem quiet (hC : Carried P C) (h : d.Upholds P C) (hSame : SameFolds d d')
    (hThins : Thins d d') : d'.Upholds P C := by
  refine ⟨hC.congr hSame h.1, fun op hOp => ?_⟩
  obtain ⟨held, hHeld, rfl | rfl⟩ := hThins op hOp
  · exact h.2 op hHeld
  · exact hC.untagged (h.2 held hHeld)

theorem untagResolved (hC : Carried P C) (h : d.Upholds P C) : d.untagResolved.Upholds P C :=
  hC.quiet h (sameFolds_of d rfl rfl rfl rfl) (thins_untagResolved d)

theorem resolveTx (hC : Carried P C) (h : d.Upholds P C) (key : TxKey) :
    (d.resolveTx key).Upholds P C :=
  hC.quiet h (sameFolds_resolveTx d key) (thins_resolveTx d key)

theorem recordStamp (hC : Carried P C) (h : d.Upholds P C) (stamp : Stamp) (n : Nat) :
    (d.recordStamp stamp n).Upholds P C := by
  refine hC.quiet h (sameFolds_recordStamp d stamp n) fun op hOp => ⟨op, ?_, .inl rfl⟩
  rwa [buffer_recordStamp] at hOp

theorem hold (hC : Carried P C) (h : d.Upholds P C) {op : Op} (hOp : C op) :
    (d.hold op).Upholds P C := by
  refine ⟨hC.congr (sameFolds_of d rfl rfl rfl rfl) h.1, fun other hOther => ?_⟩
  rcases List.mem_append.mp hOther with hOld | hNew
  · exact h.2 other hOld
  · exact List.mem_singleton.mp hNew ▸ hOp

theorem applied (hC : Carried P C) (h : d.Upholds P C) {op : Op} (hOp : C op) :
    (d.applyNow op).Upholds P C :=
  ⟨hC.applyNow h.1 hOp, fun other hOther => h.2 other (by rwa [buffer_applyNow] at hOther)⟩

theorem commitMember (hC : Carried P C) (h : d.Upholds P C) {op : Op} (hOp : C op) :
    (d.commitMember op).Upholds P C := by
  unfold Document.commitMember
  split
  · have hReleased : ({ d with buffered := d.buffered.erase op.id } : Document σ).Upholds P C :=
      hC.quiet h (sameFolds_of d rfl rfl rfl rfl) fun op hOp => ⟨op, hOp, .inl rfl⟩
    exact hC.applied hReleased hOp
  · exact hC.hold h (hC.untagged hOp)

theorem foldl_commitMember (hC : Carried P C) {members : List Op} (h : d.Upholds P C)
    (hMembers : ∀ op ∈ members, C op) : (members.foldl Document.commitMember d).Upholds P C := by
  induction members generalizing d with
  | nil => exact h
  | cons op members ih =>
    exact ih (hC.commitMember h (hMembers op List.mem_cons_self)) fun other hOther =>
      hMembers other (List.mem_cons_of_mem _ hOther)

theorem commitGroup (hC : Carried P C) (h : d.Upholds P C) (key : TxKey) :
    (d.commitGroup key).Upholds P C := by
  have hTaken : ({ d with buffer := d.buffer.filter fun op => op.txKey ≠ some key } :
      Document σ).Upholds P C :=
    hC.quiet h (sameFolds_of d rfl rfl rfl rfl) fun op hOp =>
      ⟨op, List.mem_of_mem_filter hOp, .inl rfl⟩
  refine hC.foldl_commitMember (hC.resolveTx hTaken key) fun op hOp => ?_
  rw [List.mem_insertionSort, List.mem_reverse, mem_bucket] at hOp
  exact h.2 op hOp.1

theorem drainStep (hC : Carried P C) (h : d.Upholds P C) (hStep : d.drainStep = some d') :
    d'.Upholds P C := by
  obtain ⟨op, rest, hOp, -, -, hPerm, rfl⟩ | ⟨-, rfl⟩ | ⟨key, -, rfl⟩ := drainStep_cases hStep
  · have hTaken : ({ d with buffer := rest, buffered := d.buffered.erase op.id } :
        Document σ).Upholds P C :=
      hC.quiet h (sameFolds_of d rfl rfl rfl rfl) fun other hOther =>
        ⟨other, hPerm.mem_iff.mp (List.mem_cons_of_mem _ hOther), .inl rfl⟩
    exact hC.applied hTaken (h.2 op hOp)
  · exact hC.untagResolved
      (hC.quiet h (sameFolds_of d rfl rfl rfl rfl) fun op hOp => ⟨op, hOp, .inl rfl⟩)
  · exact hC.commitGroup h key

theorem drainBuffer (hC : Carried P C) (h : d.Upholds P C) : d.drainBuffer.Upholds P C :=
  drainLoop_induct (fun _ _ hd hStep => hC.drainStep hd hStep) h _

theorem applyDuplicate (hC : Carried P C) (h : d.Upholds P C) (op : Op) :
    (d.applyDuplicate op).Upholds P C := by
  unfold Document.applyDuplicate
  split
  · exact h
  · split
    · split
      · exact h
      · exact hC.drainBuffer (hC.resolveTx (hC.resolveTx h _) _)
    · exact h

theorem accept (hC : Carried P C) (h : d.Upholds P C) {op : Op} (hOp : C op) :
    (d.accept op).Upholds P C := by
  have hWait := hC.hold (hC.recordStamp h op.stamp (span op.kind)) hOp
  unfold Document.accept
  split
  · exact hC.drainBuffer hWait
  · split
    · exact hC.drainBuffer (hC.applied h hOp)
    · exact hWait

theorem apply (hC : Carried P C) (h : d.Upholds P C) {op : Op}
    (hOp : op.isAdmissible = true → C op) : (d.apply op).Upholds P C := by
  unfold Document.apply
  split
  · exact h
  next hAdmissible =>
    have hMeets := hOp (by simpa using hAdmissible)
    split
    · exact hC.applyDuplicate h op
    · have hErased : ({ d with reserved := d.reserved.erase op.id } : Document σ).Upholds P C :=
        hC.quiet h (sameFolds_of d rfl rfl rfl rfl) fun op hOp => ⟨op, hOp, .inl rfl⟩
      refine hC.accept hErased ?_
      unfold destray
      split
      · split
        · exact hC.untagged hMeets
        · exact hMeets
      · exact hMeets

theorem evictPartialTransactions (hC : Carried P C) (h : d.Upholds P C) :
    d.evictPartialTransactions.Upholds P C := by
  unfold Document.evictPartialTransactions
  dsimp only
  split
  · exact h
  · refine hC.drainBuffer (hC.quiet h (sameFolds_of d rfl rfl rfl rfl) fun op hOp => ?_)
    obtain ⟨held, hHeld, rfl⟩ := List.mem_map.mp hOp
    exact ⟨held, hHeld, .inr rfl⟩

theorem notePublished (hC : Carried P C) (h : d.Upholds P C) (seqs : List Nat) (reach : Nat) :
    (d.notePublished seqs reach).Upholds P C := by
  have hFold (d : Document σ) (h : d.Upholds P C) : (seqs.foldl (fun d seq =>
      if (⟨d.client, seq⟩ : OpId) ∉ d.seen ∧ (⟨d.client, seq⟩ : OpId) ∉ d.buffered then
        { d with reserved := insert ⟨d.client, seq⟩ d.reserved }
      else d) d).Upholds P C := by
    induction seqs generalizing d with
    | nil => exact h
    | cons seq seqs ih =>
      apply ih
      dsimp only
      split
      · exact hC.quiet h (sameFolds_of d rfl rfl rfl rfl) fun op hOp => ⟨op, hOp, .inl rfl⟩
      · exact h
  exact hC.recordStamp (hFold d h) _ _

/-- What a snapshot declares, read back. -/
theorem readState (hC : Carried P C) {s : DocState σ} (h : (decoded s).Upholds P C)
    (hRead : Document.readState s = some d') : d'.Upholds P C := by
  unfold Document.readState at hRead
  split at hRead
  · obtain rfl := Option.some.inj hRead
    have hFold (ops : List Op) (d : Document σ) (h : d.Upholds P C) :
        (ops.foldl (fun d op => d.recordStamp op.stamp (span op.kind)) d).Upholds P C := by
      induction ops generalizing d with
      | nil => exact h
      | cons op ops ih => exact ih _ (hC.recordStamp h _ _)
    have hHeld : (decoded { s with buffered := (s.buffer.map Op.id).toFinset }).Upholds P C :=
      hC.quiet h (sameFolds_of _ rfl rfl rfl rfl) fun op hOp => ⟨op, hOp, .inl rfl⟩
    exact hC.drainBuffer (hC.untagResolved (hFold s.buffer _ hHeld))
  · cases hRead

end Carried

/-! ### Local edits -/

/-- Every edit meets `E` where it is made. -/
def EachEdit (E : Document σ → Edit → Prop) (d : Document σ) : List Edit → Prop
  | [] => True
  | e :: edits => E d e ∧ (d.emit e).EachEdit E edits

namespace Carried

variable {E : Document σ → Edit → Prop}

theorem emitAll (hE : ∀ {d e}, E d e → P d → P (d.emit e)) {edits : List Edit}
    (h : d.Upholds P C) (hEdits : d.EachEdit E edits) : (d.emitAll edits).Upholds P C := by
  unfold Document.emitAll
  induction edits generalizing d with
  | nil => exact h
  | cons e edits ih =>
    obtain ⟨hFirst, hRest⟩ := hEdits
    exact ih ⟨hE hFirst h.1, by rw [(emit_buffer d e).1]; exact h.2⟩ hRest

theorem openTransact (hC : Carried P C) (h : d.Upholds P C) : d.openTransact.Upholds P C :=
  hC.quiet h (sameFolds_of d rfl rfl rfl rfl) fun op hOp => ⟨op, hOp, .inl rfl⟩

theorem transact (hC : Carried P C) (hE : ∀ {d e}, E d e → P d → P (d.emit e)) {edits : List Edit}
    (h : d.Upholds P C) (hEdits : d.openTransact.EachEdit E edits) :
    (d.transact edits).2.Upholds P C := by
  have hDrained := hC.drainBuffer (emitAll hE (hC.openTransact h) hEdits)
  unfold Document.transact
  dsimp only
  split
  · exact hC.quiet hDrained (sameFolds_of _ rfl rfl rfl rfl) fun op hOp => ⟨op, hOp, .inl rfl⟩
  · exact hC.quiet hDrained (sameFolds_of _ rfl rfl rfl rfl) fun op hOp => ⟨op, hOp, .inl rfl⟩

theorem beginAtomic (hC : Carried P C) (h : d.Upholds P C) : d.beginAtomic.Upholds P C := by
  unfold Document.beginAtomic
  split
  · exact h
  · exact hC.quiet h (sameFolds_of _ rfl rfl rfl rfl) fun op hOp => ⟨op, hOp, .inl rfl⟩

theorem openReplay (hC : Carried P C) (h : d.Upholds P C) (isAtomic : Bool) :
    (d.openReplay isAtomic).Upholds P C := by
  have hReset : ({ d with mintRefused := false, pending := [] } : Document σ).Upholds P C :=
    hC.quiet h (sameFolds_of _ rfl rfl rfl rfl) fun op hOp => ⟨op, hOp, .inl rfl⟩
  cases isAtomic with
  | false => exact hReset
  | true => exact hC.beginAtomic hReset

variable [TxDigest]

theorem commitAtomic (hC : Carried P C) (h : d.Upholds P C) : d.commitAtomic.2.Upholds P C := by
  unfold Document.commitAtomic
  split
  · exact h
  next ops _ =>
    have hClosed : ({ d with atomic := none } : Document σ).Upholds P C :=
      hC.quiet h (sameFolds_of _ rfl rfl rfl rfl) fun op hOp => ⟨op, hOp, .inl rfl⟩
    unfold tagAtomic
    dsimp only
    split
    · exact hClosed
    · refine hC.drainBuffer (hC.untagResolved ?_)
      exact hC.quiet hClosed (sameFolds_of _ rfl rfl rfl rfl) fun op hOp => ⟨op, hOp, .inl rfl⟩

theorem replay (hC : Carried P C) (hE : ∀ {d e}, E d e → P d → P (d.emit e)) {edits : List Edit}
    {isAtomic : Bool} (h : d.Upholds P C) (hEdits : (d.openReplay isAtomic).EachEdit E edits) :
    (d.replay isAtomic edits).2.Upholds P C := by
  have hDrained := hC.drainBuffer (emitAll hE (hC.openReplay h isAtomic) hEdits)
  unfold Document.replay
  dsimp only
  split
  · apply hC.commitAtomic
    exact hC.quiet hDrained (sameFolds_of _ rfl rfl rfl rfl) fun op hOp => ⟨op, hOp, .inl rfl⟩
  · exact hC.quiet hDrained (sameFolds_of _ rfl rfl rfl rfl) fun op hOp => ⟨op, hOp, .inl rfl⟩

end Carried

variable [TxDigest]

/-- What an activity brings in meets the conditions: the op it delivers, or the edits it makes. -/
def Supplies (C : Op → Prop) (E : Document σ → Edit → Prop) (d : Document σ) : Activity → Prop
  | .transact edits => d.openTransact.EachEdit E edits
  | .apply op => op.isAdmissible = true → C op
  | .undo isAtomic edits => (d.openReplay isAtomic).EachEdit E edits
  | _ => True

theorem Carried.act {E : Document σ → Edit → Prop} (hC : Carried P C)
    (hE : ∀ {d e}, E d e → P d → P (d.emit e)) {a : Activity} (h : d.Upholds P C)
    (hSupplies : d.Supplies C E a) : (d.act a).Upholds P C := by
  have hQuiet {d' : Document σ} (hSame : SameFolds d d') (hBuffer : d'.buffer = d.buffer) :
      d'.Upholds P C := hC.quiet h hSame fun op hOp => ⟨op, hBuffer ▸ hOp, .inl rfl⟩
  cases a with
  | transact edits => exact hC.transact hE h hSupplies
  | apply op => exact hC.apply h hSupplies
  | evictPartialTransactions => exact hC.evictPartialTransactions h
  | undo isAtomic edits =>
    change (((d.undo isAtomic edits).map Prod.snd).getD d).Upholds P C
    unfold Document.undo
    split
    · exact h
    · exact hC.replay hE h hSupplies
  | beginAtomic => exact hC.beginAtomic h
  | commitAtomic => exact hC.commitAtomic h
  | beginIntention => exact hQuiet (sameFolds_of d rfl rfl rfl rfl) rfl
  | endIntention => exact hQuiet (sameFolds_of d rfl rfl rfl rfl) rfl

/-! ### Histories -/

section Histories

variable [IdBytes] {d d' : Document Content} {P : Document Content → Prop} {C : Op → Prop}
  {E : Document Content → Edit → Prop}

/-- Every activity of the history brings in what meets the conditions. -/
def SuppliesAll (C : Op → Prop) (E : Document Content → Edit → Prop) (d : Document Content) :
    List Passage → Prop
  | [] => True
  | .act a :: passages => d.Supplies C E a ∧ (d.passing (.act a)).SuppliesAll C E passages
  | p :: passages => (d.passing p).SuppliesAll C E passages

omit [TxDigest] in
theorem Carried.reloaded (hC : Carried P C)
    (hRestored : ∀ {d content}, P d → d.content.restored = some content → P { d with content })
    (h : d.Upholds P C) (hReloaded : d.reloaded = some d') : d'.Upholds P C := by
  unfold Document.reloaded decodeState at hReloaded
  obtain ⟨content, hContent, hRead⟩ := Option.bind_eq_some_iff.mp hReloaded
  have hBack : ({ d with content } : Document Content).Upholds P C := ⟨hRestored h.1 hContent, h.2⟩
  refine hC.readState ?_ hRead
  exact hC.quiet hBack (sameFolds_of _ rfl rfl rfl rfl) fun op hOp =>
    ⟨op, (List.mem_insertionSort _).mp hOp, .inl rfl⟩

theorem Carried.history (hC : Carried P C) (hE : ∀ {d e}, E d e → P d → P (d.emit e))
    (hRestored : ∀ {d content}, P d → d.content.restored = some content → P { d with content })
    {passages : List Passage} (h : d.Upholds P C) (hSupplies : d.SuppliesAll C E passages) :
    (d.history passages).Upholds P C := by
  unfold Document.history
  induction passages generalizing d with
  | nil => exact h
  | cons p passages ih =>
    cases p with
    | act a => exact ih (hC.act hE h hSupplies.1) hSupplies.2
    | notePublished seqs reach => exact ih (hC.notePublished h seqs reach) hSupplies
    | adoptAs client seq =>
      refine ih ?_ hSupplies
      exact hC.quiet h (sameFolds_of d rfl rfl rfl rfl) fun op hOp => ⟨op, hOp, .inl rfl⟩
    | reload =>
      refine ih ?_ hSupplies
      change (d.reloaded.getD d).Upholds P C
      cases hReloaded : d.reloaded with
      | none => exact h
      | some d' => exact hC.reloaded hRestored h hReloaded

end Histories

end Document

end CrdtSync
