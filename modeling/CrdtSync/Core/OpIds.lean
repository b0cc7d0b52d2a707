import CrdtSync.Core.GroupEnvelopes
import CrdtSync.Core.Minting

/-!
# The ids a replica accounts for

An id is applied, held, or reserved, and never two of these. A fold moves it into the
dedup set, from where nothing but a projection takes it out again; the mint walks past
all three sets, round the end of the sequence space where it has to.
-/

namespace CrdtSync

open Lib
open Std (ExtTreeMap)

def Activity.edits : Activity → List Edit
  | .transact edits => edits
  | .undo _ edits => edits
  | _ => []

namespace Document

variable {σ : Type} {d d' d'' : Document σ} {out ops ops' : List Op} {P Q : Op → Prop}

/-! ### The walk of the mint -/

section FreeSeq

/-- The walk stops at the first candidate that is free, or when its steps run out. -/
theorem freeSeqLoop_spec (taken : Nat → Bool) (steps : Nat) {seq : Nat} (hSeq : seq < 2 ^ 64) :
    ∃ j ≤ steps, freeSeqLoop taken steps seq = (seq + j) % 2 ^ 64 ∧
      (∀ i < j, taken ((seq + i) % 2 ^ 64) = true) ∧
        (j < steps → taken ((seq + j) % 2 ^ 64) = false) := by
  induction steps generalizing seq with
  | zero =>
    refine ⟨0, Nat.le_refl 0, (Nat.mod_eq_of_lt hSeq).symm, ?_, ?_⟩
    · intro i hi
      cases hi
    · intro hj
      cases hj
  | succ steps ih =>
    unfold freeSeqLoop
    split
    next hTaken =>
      obtain ⟨j, hj, hStop, hPassed, hFree⟩ := ih (Nat.mod_lt (seq + 1) (by omega))
      have hShift : ∀ i, ((seq + 1) % 2 ^ 64 + i) % 2 ^ 64 = (seq + (i + 1)) % 2 ^ 64 := by
        intro i
        omega
      simp only [hShift] at hStop hPassed hFree
      refine ⟨j + 1, by omega, hStop, ?_, fun hLt => hFree (by omega)⟩
      intro i hi
      cases i with
      | zero =>
        rw [Nat.add_zero, Nat.mod_eq_of_lt hSeq]
        exact hTaken
      | succ i => exact hPassed i (by omega)
    next hFree =>
      refine ⟨0, Nat.zero_le _, (Nat.mod_eq_of_lt hSeq).symm, ?_, fun _ => ?_⟩
      · intro i hi
        cases hi
      · rw [Nat.add_zero, Nat.mod_eq_of_lt hSeq]
        exact Bool.eq_false_iff.mpr hFree

/-- As many steps as there are taken sequences reach a free one. -/
theorem freeSeqLoop_free_of_lt {taken : Nat → Bool} {steps seq free : Nat} (held : Finset Nat)
    (hHeld : ∀ i < 2 ^ 64, taken i = true → i ∈ held) (hCard : held.card ≤ steps)
    (hSeq : seq < 2 ^ 64) (hFree : free < 2 ^ 64) (hNot : taken free = false) :
    taken (freeSeqLoop taken steps seq) = false := by
  obtain ⟨j, hj, hStop, hPassed, hEnd⟩ := freeSeqLoop_spec taken steps hSeq
  rw [hStop]
  obtain hLt | rfl := Nat.lt_or_eq_of_le hj
  · exact hEnd hLt
  · by_contra hTaken
    rw [Bool.not_eq_false] at hTaken
    have hAll : ∀ i < j + 1, taken ((seq + i) % 2 ^ 64) = true := by
      intro i hi
      obtain hBefore | rfl := Nat.lt_succ_iff_lt_or_eq.mp hi
      · exact hPassed i hBefore
      · exact hTaken
    obtain hLong | hShort := Nat.lt_or_ge j (2 ^ 64)
    · -- The candidates are distinct and all held, one more than there are held ids.
      have hInj : Set.InjOn (fun i => (seq + i) % 2 ^ 64) (Finset.range (j + 1) : Finset Nat) := by
        intro a ha b hb hSame
        rw [Finset.mem_coe, Finset.mem_range] at ha hb
        dsimp only at hSame
        omega
      have hSub : (Finset.range (j + 1)).image (fun i => (seq + i) % 2 ^ 64) ⊆ held := by
        intro candidate hCandidate
        obtain ⟨i, hi, rfl⟩ := Finset.mem_image.mp hCandidate
        exact hHeld _ (Nat.mod_lt _ (by omega)) (hAll i (Finset.mem_range.mp hi))
      have hCount := Finset.card_le_card hSub
      rw [Finset.card_image_of_injOn hInj, Finset.card_range] at hCount
      omega
    · -- The walk has been all the way round, so it has met the free one.
      have hMet := hAll ((free + 2 ^ 64 - seq) % 2 ^ 64) (by omega)
      have hHere : (seq + (free + 2 ^ 64 - seq) % 2 ^ 64) % 2 ^ 64 = free := by omega
      rw [hHere, hNot] at hMet
      cases hMet

/-- Wherever the walk begins: a start past the end of the space is met once. -/
theorem freeSeqLoop_free {taken : Nat → Bool} {steps seq free : Nat} (held : Finset Nat)
    (hHeld : ∀ i, taken i = true → i ∈ held) (hCard : held.card ≤ steps)
    (hFree : free < 2 ^ 64) (hNot : taken free = false) :
    taken (freeSeqLoop taken steps seq) = false := by
  obtain hSeq | hPast := Nat.lt_or_ge seq (2 ^ 64)
  · exact freeSeqLoop_free_of_lt held (fun i _ => hHeld i) hCard hSeq hFree hNot
  · cases hTaken : taken seq with
    | false =>
      cases steps with
      | zero => exact hTaken
      | succ steps =>
        unfold freeSeqLoop
        rw [if_neg (Bool.eq_false_iff.mp hTaken)]
        exact hTaken
    | true =>
      have hMem : seq ∈ held := hHeld seq hTaken
      have hRest : (held.erase seq).card + 1 = held.card := Finset.card_erase_add_one hMem
      cases steps with
      | zero => omega
      | succ steps =>
        unfold freeSeqLoop
        rw [if_pos hTaken]
        refine freeSeqLoop_free_of_lt (held.erase seq) ?_ (by omega) (Nat.mod_lt _ (by omega))
          hFree hNot
        intro i hi hOther
        refine Finset.mem_erase.mpr ⟨?_, hHeld i hOther⟩
        omega

/-- The ids a replica accounts for. -/
def ids (d : Document σ) : Finset OpId := d.seen ∪ d.buffered ∪ d.reserved

theorem mem_ids {id : OpId} : id ∈ d.ids ↔ id ∈ d.seen ∨ id ∈ d.buffered ∨ id ∈ d.reserved := by
  simp only [ids, Finset.mem_union, or_assoc]

theorem published_eq_false {id : OpId} : d.published id = false ↔ id ∉ d.ids := by
  simp only [published, mem_ids, Bool.or_eq_false_iff, decide_eq_false_iff_not, not_or, and_assoc]

/-- A replica accounts for fewer ids than there are sequences: its memory bounds them. -/
def Roomy (d : Document σ) : Prop := d.ids.card < 2 ^ 64

theorem Roomy.exists_free (h : d.Roomy) : ∃ seq < 2 ^ 64, (⟨d.client, seq⟩ : OpId) ∉ d.ids := by
  by_contra hNone
  push Not at hNone
  have hSub : (Finset.range (2 ^ 64)).image (fun seq => (⟨d.client, seq⟩ : OpId)) ⊆ d.ids := by
    intro id hId
    obtain ⟨seq, hSeq, rfl⟩ := Finset.mem_image.mp hId
    exact hNone seq (Finset.mem_range.mp hSeq)
  have hCount := Finset.card_le_card hSub
  rw [Finset.card_image_of_injective _ fun a b hSame => (OpId.mk.inj hSame).2,
    Finset.card_range] at hCount
  exact absurd h (Nat.not_lt.mpr hCount)

theorem freeSeq_lt {start : Nat} (hStart : start < 2 ^ 64) : d.freeSeq start < 2 ^ 64 := by
  obtain ⟨j, -, hStop, -⟩ := freeSeqLoop_spec (fun seq => d.published ⟨d.client, seq⟩)
    (d.seen.card + d.buffered.card + d.reserved.card) hStart
  unfold freeSeq
  rw [hStop]
  exact Nat.mod_lt _ (by omega)

theorem freeSeq_free (start : Nat) {free : Nat} (hFree : free < 2 ^ 64)
    (hNot : (⟨d.client, free⟩ : OpId) ∉ d.ids) :
    (⟨d.client, d.freeSeq start⟩ : OpId) ∉ d.ids := by
  rw [← published_eq_false]
  refine @freeSeqLoop_free (fun seq => d.published ⟨d.client, seq⟩) _ _ _ (d.ids.image OpId.seq)
    ?_ ?_ hFree (published_eq_false.mpr hNot)
  · intro seq hTaken
    refine Finset.mem_image.mpr ⟨⟨d.client, seq⟩, ?_, rfl⟩
    by_contra hOut
    rw [published_eq_false.mpr hOut] at hTaken
    cases hTaken
  · refine Finset.card_image_le.trans ?_
    exact (Finset.card_union_le _ _).trans (Nat.add_le_add_right (Finset.card_union_le _ _) _)

end FreeSeq

/-! ### What is folded -/

/-- `ops` are folded into the content on the way from `d` to `d'`, in this order, and are
what enters the dedup set: none was in it, and none comes twice. -/
structure FoldsInto [Folds σ] (d d' : Document σ) (ops : List Op) : Prop where
  content : d'.content =
    ops.foldl (fun c op => Folds.applyKind c op.target op.kind op.stamp op.id.client) d.content
  seen : ∀ id, id ∈ d'.seen ↔ id ∈ d.seen ∨ id ∈ ops.map Op.id
  once : (ops.map Op.id).Nodup
  fresh : ∀ op ∈ ops, op.id ∉ d.seen

namespace FoldsInto

variable [Folds σ]

theorem quiet (hContent : d'.content = d.content) (hSeen : d'.seen = d.seen) :
    FoldsInto d d' [] where
  content := hContent
  seen id := by
    rw [hSeen]
    simp
  once := List.nodup_nil
  fresh := fun _ hOp => absurd hOp List.not_mem_nil

theorem trans (h : FoldsInto d d' ops) (h' : FoldsInto d' d'' ops') :
    FoldsInto d d'' (ops ++ ops') where
  content := by
    rw [h'.content, h.content, List.foldl_append]
  seen id := by
    rw [h'.seen, h.seen, List.map_append, List.mem_append, or_assoc]
  once := by
    rw [List.map_append, List.nodup_append]
    refine ⟨h.once, h'.once, ?_⟩
    rintro id hId other hOther rfl
    obtain ⟨op, hOp, rfl⟩ := List.mem_map.mp hOther
    exact h'.fresh op hOp ((h.seen _).mpr (.inr hId))
  fresh op hOp hSeen := by
    obtain hBefore | hAfter := List.mem_append.mp hOp
    · exact h.fresh op hBefore hSeen
    · exact h'.fresh op hAfter ((h.seen _).mpr (.inl hSeen))

/-- A change around the content and the dedup set folds nothing. -/
theorem before (h : FoldsInto d' d'' ops) (hContent : d'.content = d.content)
    (hSeen : d'.seen = d.seen) : FoldsInto d d'' ops :=
  (quiet hContent hSeen).trans h

theorem applyNow (d : Document σ) {op : Op} (hNew : op.id ∉ d.seen) :
    FoldsInto d (d.applyNow op) [op] where
  content := by
    unfold Document.applyNow Document.applyKind
    simp
  seen id := by
    rw [seen_applyNow, Finset.mem_insert]
    simp [or_comm]
  once := List.nodup_singleton _
  fresh other hOther := by
    rw [List.mem_singleton.mp hOther]
    exact hNew

end FoldsInto

section Drains

variable [Folds σ]

theorem KeptBut.folds_commitMember {op : Op} (h : d.KeptBut (op :: out)) :
    ∃ ops ⊆ [op], FoldsInto d (d.commitMember op) ops := by
  have hNew : op.id ∉ d.seen := h.apart _ ((h.held _).mpr (.inr List.mem_cons_self))
  unfold Document.commitMember
  split
  · have hOne := FoldsInto.applyNow ({ d with buffered := d.buffered.erase op.id } : Document σ) hNew
    exact ⟨[op], List.Subset.refl _, hOne.before rfl rfl⟩
  · exact ⟨[], List.nil_subset _, .quiet rfl rfl⟩

theorem KeptBut.folds_foldl_commitMember (h : d.KeptBut out) :
    ∃ ops ⊆ out, FoldsInto d (out.foldl Document.commitMember d) ops := by
  induction out generalizing d with
  | nil => exact ⟨[], List.Subset.refl _, .quiet rfl rfl⟩
  | cons op out ih =>
    obtain ⟨first, hSelf, hFirst⟩ := h.folds_commitMember
    obtain ⟨rest, hMembers, hRest⟩ := ih h.commitMember
    refine ⟨first ++ rest, List.append_subset.mpr ⟨fun other hOther => ?_, ?_⟩, hFirst.trans hRest⟩
    · rw [List.mem_singleton.mp (hSelf hOther)]
      exact List.mem_cons_self
    · exact fun other hOther => List.mem_cons_of_mem _ (hMembers hOther)

omit [Folds σ] in
theorem seen_resolveTx (d : Document σ) (key : TxKey) : (d.resolveTx key).seen = d.seen := by
  unfold resolveTx
  split <;> rfl

omit [Folds σ] in
theorem content_resolveTx (d : Document σ) (key : TxKey) :
    (d.resolveTx key).content = d.content := by
  unfold resolveTx
  split <;> rfl

theorem Kept.folds_drainStep (h : d.Kept) (hStep : d.drainStep = some d') :
    ∃ ops ⊆ d.buffer, FoldsInto d d' ops := by
  obtain ⟨op, rest, hOp, -, -, -, rfl⟩ | ⟨-, rfl⟩ | ⟨key, -, rfl⟩ := drainStep_cases hStep
  · have hNew : op.id ∉ d.seen :=
      KeptBut.apart h _ (h.mem_buffered.mpr (List.mem_map_of_mem hOp))
    have hOne := FoldsInto.applyNow
      ({ d with buffer := rest, buffered := d.buffered.erase op.id } : Document σ) hNew
    refine ⟨[op], fun other hOther => ?_, hOne.before rfl rfl⟩
    rw [List.mem_singleton.mp hOther]
    exact hOp
  · exact ⟨[], List.nil_subset _, .quiet rfl rfl⟩
  · unfold commitGroup
    dsimp only
    obtain ⟨ops, hMembers, hOps⟩ := ((h.takeBucket key).resolveTx key).folds_foldl_commitMember
    refine ⟨ops, fun op hOp => ?_, hOps.before (content_resolveTx ..) (seen_resolveTx ..)⟩
    have hMember := hMembers hOp
    rw [List.mem_insertionSort, List.mem_reverse, mem_bucket] at hMember
    exact hMember.1

end Drains

/-! ### The books -/

/-- The op is one of these, or the untagged copy of one. -/
def Copies (P : Op → Prop) (op : Op) : Prop := ∃ origin, P origin ∧ (op = origin ∨ op = origin.untagged)

theorem Copies.untagged {op : Op} (h : Copies P op) : Copies P op.untagged := by
  obtain ⟨origin, hOrigin, rfl | rfl⟩ := h
  · exact ⟨_, hOrigin, .inr rfl⟩
  · exact ⟨origin, hOrigin, .inr rfl⟩

theorem Copies.mono {op : Op} (h : Copies P op) (hP : ∀ op, P op → Q op) : Copies Q op := by
  obtain ⟨origin, hOrigin, hSame⟩ := h
  exact ⟨origin, hP origin hOrigin, hSame⟩

/-- The held ids are those of the buffer, a reserved id is neither applied nor held, and what
waits is one of `P`. -/
structure Booked (d : Document σ) (P : Op → Prop) : Prop where
  kept : d.Kept
  apart : ∀ id ∈ d.reserved, id ∉ d.known
  waits : ∀ op ∈ d.buffer, Copies P op

theorem Booked.congr (h : d.Booked P) (hIds : d'.buffer.map Op.id = d.buffer.map Op.id)
    (hThins : Thins d d') (hBuffered : d'.buffered = d.buffered) (hSeen : d'.seen = d.seen)
    (hReserved : d'.reserved ⊆ d.reserved) : d'.Booked P where
  kept := KeptBut.congr h.kept hIds hBuffered hSeen
  apart id hId := by
    have hOld := h.apart id (hReserved hId)
    rw [mem_known] at hOld ⊢
    rw [hIds, hBuffered, hSeen]
    exact hOld
  waits op hOp := by
    obtain ⟨held, hHeld, rfl | rfl⟩ := hThins op hOp
    · exact h.waits _ hHeld
    · exact (h.waits held hHeld).untagged

theorem Booked.mono (h : d.Booked P) (hP : ∀ op, P op → Q op) : d.Booked Q :=
  ⟨h.kept, h.apart, fun op hOp => (h.waits op hOp).mono hP⟩

theorem Booked.not_mem_ids (h : d.Booked P) {id : OpId} : id ∉ d.ids ↔ id ∉ d.known ∧ id ∉ d.reserved := by
  rw [mem_ids, h.kept.tracked.mem_known]
  tauto

/-- `d'` keeps books, and the ops folded on the way to it are of `P`, none of them twice. -/
structure Follows [Folds σ] (d d' : Document σ) (P : Op → Prop) : Prop where
  booked : d'.Booked P
  folds : ∃ ops, FoldsInto d d' ops ∧ ∀ op ∈ ops, Copies P op

theorem reserved_advanceClock (d : Document σ) (zone : Option Nat) (floor : Nat) :
    (d.advanceClock zone floor).reserved = d.reserved := by
  cases zone <;> rfl

theorem reserved_recordStamp (d : Document σ) (stamp : Stamp) (n : Nat) :
    (d.recordStamp stamp n).reserved = d.reserved := by
  unfold recordStamp
  dsimp only
  split <;> rfl

theorem reserved_resolveTx (d : Document σ) (key : TxKey) :
    (d.resolveTx key).reserved = d.reserved := by
  unfold resolveTx
  split <;> rfl

theorem thins_of_buffer (hBuffer : d'.buffer = d.buffer) : Thins d d' :=
  fun op hOp => ⟨op, hBuffer ▸ hOp, .inl rfl⟩

theorem Booked.recordStamp (h : d.Booked P) (stamp : Stamp) (n : Nat) :
    (d.recordStamp stamp n).Booked P :=
  h.congr (by rw [buffer_recordStamp]) (thins_of_buffer (buffer_recordStamp ..))
    (buffered_recordStamp ..) (seen_recordStamp ..) (reserved_recordStamp ..).subset

theorem Booked.hold (h : d.Booked P) {op : Op} (hNew : op.id ∉ d.ids) (hOp : Copies P op) :
    (d.hold op).Booked P where
  kept := h.kept.hold (h.not_mem_ids.mp hNew).1
  apart id hId := by
    rw [known_hold, Finset.mem_insert]
    rintro (rfl | hKnown)
    · exact (h.not_mem_ids.mp hNew).2 hId
    · exact h.apart id hId hKnown
  waits other hOther := by
    obtain hOld | hHere := List.mem_append.mp hOther
    · exact h.waits other hOld
    · exact List.mem_singleton.mp hHere ▸ hOp

section Moves

variable [Folds σ]

theorem Follows.trans (h : Follows d d' P) (h' : d'.Booked P → Follows d' d'' P) :
    Follows d d'' P := by
  obtain ⟨ops, hOps, hFrom⟩ := h.folds
  obtain ⟨hBooked, ops', hOps', hFrom'⟩ := h' h.booked
  refine ⟨hBooked, ops ++ ops', hOps.trans hOps', fun op hOp => ?_⟩
  exact (List.mem_append.mp hOp).elim (hFrom op) (hFrom' op)

/-- Books kept without a fold. -/
theorem Booked.still (h : d'.Booked P) (hContent : d'.content = d.content)
    (hSeen : d'.seen = d.seen) : Follows d d' P :=
  ⟨h, [], .quiet hContent hSeen, fun _ hOp => absurd hOp List.not_mem_nil⟩

theorem Booked.quiet (h : d.Booked P) (hContent : d'.content = d.content)
    (hBuffer : d'.buffer = d.buffer) (hBuffered : d'.buffered = d.buffered)
    (hSeen : d'.seen = d.seen) (hReserved : d'.reserved ⊆ d.reserved) : Follows d d' P :=
  (h.congr (by rw [hBuffer]) (thins_of_buffer hBuffer) hBuffered hSeen hReserved).still hContent hSeen

theorem Booked.follows_recordStamp (h : d.Booked P) (stamp : Stamp) (n : Nat) :
    Follows d (d.recordStamp stamp n) P :=
  (h.recordStamp stamp n).still (content_recordStamp ..) (seen_recordStamp ..)

theorem Booked.untagResolved (h : d.Booked P) : Follows d d.untagResolved P := by
  refine (h.congr ?_ (thins_untagResolved d) rfl rfl (Finset.Subset.refl _)).still rfl rfl
  simp [Document.untagResolved, Function.comp_def]

theorem reserved_applyNow (d : Document σ) (op : Op) : (d.applyNow op).reserved = d.reserved := by
  unfold applyNow applyKind
  dsimp only
  rw [reserved_recordStamp, reserved_advanceClock]

theorem Booked.applyNow (h : d.Booked P) {op : Op} (hNew : op.id ∉ d.ids) (hOp : Copies P op) :
    Follows d (d.applyNow op) P := by
  obtain ⟨hKnown, hFree⟩ := h.not_mem_ids.mp hNew
  refine ⟨⟨h.kept.applyNow hKnown, ?_, ?_⟩, [op], .applyNow d fun hSeen => ?_, ?_⟩
  · intro id hId
    rw [reserved_applyNow] at hId
    rw [known_applyNow, Finset.mem_insert]
    rintro (rfl | hOld)
    · exact hFree hId
    · exact h.apart id hId hOld
  · rw [buffer_applyNow]
    exact h.waits
  · exact hKnown (mem_known.mpr (.inl hSeen))
  · intro other hOther
    exact List.mem_singleton.mp hOther ▸ hOp

/-- A move of the drain leaves the reservations, and drops no id. -/
structure Carries (d d' : Document σ) : Prop where
  reserved : d'.reserved = d.reserved
  ids : d.ids ⊆ d'.ids

omit [Folds σ] in
theorem Carries.refl (d : Document σ) : Carries d d := ⟨rfl, Finset.Subset.refl _⟩

omit [Folds σ] in
theorem Carries.trans (h : Carries d d') (h' : Carries d' d'') : Carries d d'' :=
  ⟨h'.reserved.trans h.reserved, h.ids.trans h'.ids⟩

omit [Folds σ] in
theorem Carries.of_sets (hReserved : d'.reserved = d.reserved) (hSeen : d.seen ⊆ d'.seen)
    (hBuffered : ∀ id ∈ d.buffered, id ∈ d'.seen ∨ id ∈ d'.buffered) : Carries d d' := by
  refine ⟨hReserved, fun id hId => mem_ids.mpr ?_⟩
  obtain hApplied | hHeld | hFree := mem_ids.mp hId
  · exact .inl (hSeen hApplied)
  · exact (hBuffered id hHeld).imp_right .inl
  · exact .inr (.inr (hReserved ▸ hFree))

theorem carries_release (d : Document σ) (rest : List Op) (op : Op) :
    Carries d (({ d with buffer := rest, buffered := d.buffered.erase op.id } :
      Document σ).applyNow op) := by
  refine .of_sets (reserved_applyNow ..) ?_ fun id hHeld => ?_
  · rw [seen_applyNow]
    exact Finset.subset_insert _ _
  · rw [seen_applyNow, buffered_applyNow, Finset.mem_insert, Finset.mem_erase]
    tauto

theorem carries_commitMember (d : Document σ) (op : Op) : Carries d (d.commitMember op) := by
  unfold commitMember
  split
  · exact carries_release d d.buffer op
  · exact .of_sets rfl (Finset.Subset.refl _) fun id hHeld => .inr (Finset.mem_insert_of_mem hHeld)

omit [Folds σ] in
theorem carries_resolveTx (d : Document σ) (key : TxKey) : Carries d (d.resolveTx key) := by
  unfold resolveTx
  split
  · exact .refl d
  · exact .of_sets rfl (Finset.Subset.refl _) fun id hHeld => .inr hHeld

theorem carries_foldl_commitMember (members : List Op) (d : Document σ) :
    Carries d (members.foldl Document.commitMember d) := by
  induction members generalizing d with
  | nil => exact .refl d
  | cons op members ih => exact (carries_commitMember d op).trans (ih _)

theorem carries_drainStep (hStep : d.drainStep = some d') : Carries d d' := by
  obtain ⟨op, rest, -, -, -, -, rfl⟩ | ⟨-, rfl⟩ | ⟨key, -, rfl⟩ := drainStep_cases hStep
  · exact carries_release d rest op
  · exact .of_sets rfl (Finset.Subset.refl _) fun id hHeld => .inr hHeld
  · unfold commitGroup
    dsimp only
    refine Carries.trans ?_ (carries_foldl_commitMember _ _)
    refine Carries.trans ?_ (carries_resolveTx _ key)
    exact .of_sets rfl (Finset.Subset.refl _) fun id hHeld => .inr hHeld

theorem seen_subset_drainStep (hStep : d.drainStep = some d') : d.seen ⊆ d'.seen := by
  have hMember : ∀ (members : List Op) (d : Document σ),
      d.seen ⊆ (members.foldl Document.commitMember d).seen := by
    intro members
    induction members with
    | nil => exact fun d => Finset.Subset.refl _
    | cons op members ih =>
      refine fun d => Finset.Subset.trans ?_ (ih _)
      unfold commitMember
      split
      · rw [seen_applyNow]
        exact Finset.subset_insert _ _
      · exact Finset.Subset.refl _
  obtain ⟨op, rest, -, -, -, -, rfl⟩ | ⟨-, rfl⟩ | ⟨key, -, rfl⟩ := drainStep_cases hStep
  · rw [seen_applyNow]
    exact Finset.subset_insert _ _
  · exact Finset.Subset.refl _
  · unfold commitGroup
    dsimp only
    refine Finset.Subset.trans ?_ (hMember _ _)
    unfold resolveTx
    split <;> exact Finset.Subset.refl _

theorem carries_drainBuffer (d : Document σ) : Carries d d.drainBuffer :=
  drainLoop_induct (fun _ _ h hStep => h.trans (carries_drainStep hStep)) (.refl d) _

theorem Booked.drainStep (h : d.Booked P) (hStep : d.drainStep = some d') : Follows d d' P := by
  obtain ⟨ops, hHeld, hOps⟩ := h.kept.folds_drainStep hStep
  refine ⟨⟨h.kept.drainStep hStep, ?_, ?_⟩, ops, hOps, fun op hOp => h.waits op (hHeld hOp)⟩
  · rw [(carries_drainStep hStep).reserved, known_drainStep hStep]
    exact h.apart
  · intro op hOp
    obtain ⟨held, hIn, rfl | rfl⟩ := thins_drainStep hStep op hOp
    · exact h.waits _ hIn
    · exact (h.waits held hIn).untagged

theorem Booked.drainBuffer (h : d.Booked P) : Follows d d.drainBuffer P := by
  refine drainLoop_induct (P := fun now => Follows d now P) ?_ (h.still rfl rfl) _
  exact fun now next hNow hStep => hNow.trans fun hBooked => hBooked.drainStep hStep

/-! ### Foreign ops and groups given up on -/

theorem Booked.resolveTx (h : d.Booked P) (key : TxKey) : Follows d (d.resolveTx key) P := by
  unfold Document.resolveTx
  split
  · exact h.still rfl rfl
  · have hSpent : Follows d ({ d with resolvedTx := insert key d.resolvedTx } : Document σ) P :=
      h.quiet rfl rfl rfl rfl (Finset.Subset.refl _)
    exact hSpent.trans Booked.untagResolved

theorem Booked.applyDuplicate (h : d.Booked P) (op : Op) : Follows d (d.applyDuplicate op) P := by
  unfold Document.applyDuplicate
  split
  · exact h.still rfl rfl
  · split
    · split
      · exact h.still rfl rfl
      · exact ((h.resolveTx _).trans fun hBooked => hBooked.resolveTx _).trans Booked.drainBuffer
    · exact h.still rfl rfl

theorem Booked.accept (h : d.Booked P) {op : Op} (hNew : op.id ∉ d.ids) (hOp : Copies P op) :
    Follows d (d.accept op) P := by
  -- An op that waits is on record before it is held, and the record folds nothing.
  have hHeld : Follows d ((d.recordStamp op.stamp (span op.kind)).hold op) P := by
    refine ((h.recordStamp _ _).hold ?_ hOp).still (content_recordStamp ..) (seen_recordStamp ..)
    rw [mem_ids, seen_recordStamp, buffered_recordStamp, reserved_recordStamp, ← mem_ids]
    exact hNew
  unfold Document.accept
  split
  · exact hHeld.trans Booked.drainBuffer
  · split
    · exact (h.applyNow hNew hOp).trans Booked.drainBuffer
    · exact hHeld

theorem Booked.apply (h : d.Booked P) {op : Op} (hOp : P op) : Follows d (d.apply op) P := by
  unfold Document.apply
  split
  · exact h.still rfl rfl
  · split
    · exact h.applyDuplicate op
    next hNew =>
      have hFreed : Follows d ({ d with reserved := d.reserved.erase op.id } : Document σ) P :=
        h.quiet rfl rfl rfl rfl (Finset.erase_subset _ _)
      refine hFreed.trans fun hBooked => hBooked.accept ?_ ?_
      · rw [destray_id, mem_ids]
        rintro (hSeen | hHeld | hReserved)
        · exact hNew (.inl hSeen)
        · exact hNew (.inr hHeld)
        · exact absurd rfl (Finset.mem_erase.mp hReserved).1
      · refine ⟨op, hOp, ?_⟩
        unfold destray
        split
        · split
          · exact .inr rfl
          · exact .inl rfl
        · exact .inl rfl

theorem Booked.evictPartialTransactions (h : d.Booked P) : Follows d d.evictPartialTransactions P := by
  unfold Document.evictPartialTransactions
  dsimp only
  split
  · exact h.still rfl rfl
  · refine Follows.trans ?_ Booked.drainBuffer
    refine Booked.still (h.congr ?_ ?_ rfl rfl (Finset.Subset.refl _)) rfl rfl
    · simp [Function.comp_def]
    · intro op hOp
      obtain ⟨held, hHeld, rfl⟩ := List.mem_map.mp hOp
      exact ⟨held, hHeld, .inr rfl⟩

/-! ### Local edits -/

theorem emit_of_emitted {e : Edit} {op : Op} (h : d.emitted e = some op) :
    (d.emit e).content = Folds.applyKind d.content op.target op.kind op.stamp op.id.client ∧
      (d.emit e).seen = insert op.id d.seen ∧ (d.emit e).buffer = d.buffer ∧
        (d.emit e).buffered = d.buffered ∧ (d.emit e).reserved = d.reserved ∧
          op.id = ⟨d.client, d.nextSeq⟩ := by
  unfold emitted at h
  by_cases hRefused : d.mintRefused = true
  · rw [if_pos hRefused] at h
    cases h
  rw [if_neg hRefused] at h
  obtain ⟨stamp, hStamp, rfl⟩ := Option.map_eq_some_iff.mp h
  have hClient := (settles_advanceClock d e.zone (stamp.lamport + span e.kind - 1)).client
  have hSeq := nextSeq_advanceClock d e.zone (stamp.lamport + span e.kind - 1)
  unfold emit
  rw [if_neg hRefused, hStamp]
  simp [Document.applyKind, mintOpId, hClient, hSeq, reserved_advanceClock, reserved_recordStamp]

theorem carries_emit (d : Document σ) (e : Edit) : Carries d (d.emit e) := by
  cases hEmitted : d.emitted e with
  | none =>
    rw [emit_of_emitted_eq_none hEmitted]
    exact .of_sets rfl (Finset.Subset.refl _) fun id hHeld => .inr hHeld
  | some op =>
    obtain ⟨-, hSeen, -, hBuffered, hReserved, -⟩ := emit_of_emitted hEmitted
    refine .of_sets hReserved ?_ fun id hHeld => .inr (hBuffered ▸ hHeld)
    rw [hSeen]
    exact Finset.subset_insert _ _

theorem carries_emitAll (d : Document σ) (edits : List Edit) : Carries d (d.emitAll edits) := by
  unfold emitAll
  induction edits generalizing d with
  | nil => exact .refl d
  | cons e edits ih => exact (carries_emit d e).trans (ih _)

omit [Folds σ] in
theorem Roomy.of_carries (h : d'.Roomy) (hCarries : Carries d d') : d.Roomy :=
  (Finset.card_le_card hCarries.ids).trans_lt h

/-- The ops these edits may be emitted as. -/
def Mints (σ : Type) (edits : List Edit) (op : Op) : Prop :=
  ∃ now : Document σ, ∃ e ∈ edits, now.emitted e = some op

theorem Booked.emit (h : d.Booked P) (hRoom : d.Roomy) {e : Edit}
    (hMints : ∀ op, d.emitted e = some op → P op) : Follows d (d.emit e) P := by
  cases hEmitted : d.emitted e with
  | none =>
    rw [emit_of_emitted_eq_none hEmitted]
    exact h.quiet rfl rfl rfl rfl (Finset.Subset.refl _)
  | some op =>
    obtain ⟨hContent, hSeen, hBuffer, hBuffered, hReserved, hId⟩ := emit_of_emitted hEmitted
    obtain ⟨free, hFree, hNot⟩ := hRoom.exists_free
    have hNew : op.id ∉ d.ids := hId ▸ freeSeq_free d.seq hFree hNot
    -- As far as the books go, the edit leaves what applying its op does.
    have hApplied : Follows d (d.applyNow op) P :=
      h.applyNow hNew ⟨op, hMints op hEmitted, .inl rfl⟩
    refine hApplied.trans fun hBooked => hBooked.quiet ?_ ?_ ?_ ?_ ?_
    · rw [hContent]
      simp [Document.applyNow, Document.applyKind]
    · rw [hBuffer, buffer_applyNow]
    · rw [hBuffered, buffered_applyNow]
    · rw [hSeen, seen_applyNow]
    · rw [hReserved, reserved_applyNow]

theorem Booked.emitAll (h : d.Booked P) {edits : List Edit} (hRoom : (d.emitAll edits).Roomy)
    (hMints : ∀ op, Mints σ edits op → P op) : Follows d (d.emitAll edits) P := by
  induction edits generalizing d with
  | nil => exact h.still rfl rfl
  | cons e edits ih =>
    have hNow : d.Roomy := hRoom.of_carries (carries_emitAll d (e :: edits))
    have hFirst : Follows d (d.emit e) P :=
      h.emit hNow fun op hOp => hMints op ⟨d, e, List.mem_cons_self, hOp⟩
    refine hFirst.trans fun hBooked => ih hBooked hRoom fun op hOp => hMints op ?_
    obtain ⟨now, edit, hEdit, hEmitted⟩ := hOp
    exact ⟨now, edit, List.mem_cons_of_mem _ hEdit, hEmitted⟩

theorem Booked.intend (h : d.Booked P) {edits : List Edit}
    (hRoom : (d.emitAll edits).drainBuffer.Roomy) (hMints : ∀ op, Mints σ edits op → P op) :
    Follows d (d.emitAll edits).drainBuffer P :=
  (h.emitAll (hRoom.of_carries (carries_drainBuffer _)) hMints).trans Booked.drainBuffer

theorem Booked.transact (h : d.Booked P) {edits : List Edit} (hRoom : (d.transact edits).2.Roomy)
    (hMints : ∀ op, Mints σ edits op → P op) : Follows d (d.transact edits).2 P := by
  have hOpen : Follows d d.openTransact P := h.quiet rfl rfl rfl rfl (Finset.Subset.refl _)
  have hRoomy : (d.openTransact.emitAll edits).drainBuffer.Roomy := by
    unfold Document.transact at hRoom
    dsimp only at hRoom
    split at hRoom <;> exact hRoom
  refine (hOpen.trans fun hBooked => hBooked.intend hRoomy hMints).trans fun hBooked => ?_
  unfold Document.transact
  dsimp only
  split <;> exact hBooked.quiet rfl rfl rfl rfl (Finset.Subset.refl _)

theorem Booked.beginAtomic (h : d.Booked P) : Follows d d.beginAtomic P := by
  unfold Document.beginAtomic
  split <;> exact h.quiet rfl rfl rfl rfl (Finset.Subset.refl _)

variable [TxDigest]

theorem Booked.tagAtomic (h : d.Booked P) (ops : List Op) : Follows d (d.tagAtomic ops).2 P := by
  unfold Document.tagAtomic
  dsimp only
  split
  · exact h.still rfl rfl
  · refine Follows.trans (Follows.trans ?_ Booked.untagResolved) Booked.drainBuffer
    exact h.quiet rfl rfl rfl rfl (Finset.Subset.refl _)

theorem Booked.commitAtomic (h : d.Booked P) : Follows d d.commitAtomic.2 P := by
  unfold Document.commitAtomic
  split
  · exact h.still rfl rfl
  next ops _ =>
    have hClosed : Follows d ({ d with atomic := none } : Document σ) P :=
      h.quiet rfl rfl rfl rfl (Finset.Subset.refl _)
    exact hClosed.trans fun hBooked => hBooked.tagAtomic ops

theorem carries_tagAtomic (d : Document σ) (ops : List Op) : Carries d (d.tagAtomic ops).2 := by
  unfold tagAtomic
  dsimp only
  split
  · exact .refl d
  · refine Carries.trans ?_ (carries_drainBuffer _)
    exact .of_sets rfl (Finset.Subset.refl _) fun id hHeld => .inr hHeld

theorem carries_commitAtomic (d : Document σ) : Carries d d.commitAtomic.2 := by
  unfold commitAtomic
  split
  · exact .refl d
  · refine Carries.trans ?_ (carries_tagAtomic _ _)
    exact .of_sets rfl (Finset.Subset.refl _) fun id hHeld => .inr hHeld

theorem Booked.replay (h : d.Booked P) {isAtomic : Bool} {edits : List Edit}
    (hRoom : (d.replay isAtomic edits).2.Roomy) (hMints : ∀ op, Mints σ edits op → P op) :
    Follows d (d.replay isAtomic edits).2 P := by
  have hOpen : Follows d (d.openReplay isAtomic) P := by
    have hFresh : Follows d ({ d with mintRefused := false, pending := [] } : Document σ) P :=
      h.quiet rfl rfl rfl rfl (Finset.Subset.refl _)
    cases isAtomic with
    | false => exact hFresh
    | true => exact hFresh.trans Booked.beginAtomic
  unfold Document.replay at hRoom ⊢
  dsimp only at hRoom ⊢
  split at hRoom
  next hAtomic =>
    rw [if_pos hAtomic]
    have hGathered := hRoom.of_carries (carries_commitAtomic _)
    have hRoomy : ((d.openReplay isAtomic).emitAll edits).drainBuffer.Roomy := hGathered
    refine (hOpen.trans fun hBooked => hBooked.intend hRoomy hMints).trans fun hBooked => ?_
    refine Follows.trans ?_ Booked.commitAtomic
    exact hBooked.quiet rfl rfl rfl rfl (Finset.Subset.refl _)
  next hAtomic =>
    rw [if_neg hAtomic]
    refine (hOpen.trans fun hBooked => hBooked.intend hRoom hMints).trans fun hBooked => ?_
    exact hBooked.quiet rfl rfl rfl rfl (Finset.Subset.refl _)

/-- The ops an activity brings to a replica: the one it delivers, or those its edits mint. -/
def Brings (σ : Type) (a : Activity) (op : Op) : Prop := a = .apply op ∨ Mints σ a.edits op

theorem Booked.act (h : d.Booked P) {a : Activity} (hRoom : (d.act a).Roomy)
    (hBrings : ∀ op, Brings σ a op → P op) : Follows d (d.act a) P := by
  cases a with
  | transact edits => exact h.transact hRoom fun op hOp => hBrings op (.inr hOp)
  | apply op => exact h.apply (hBrings op (.inl rfl))
  | evictPartialTransactions => exact h.evictPartialTransactions
  | undo isAtomic edits =>
    unfold Document.act Document.undo at hRoom ⊢
    dsimp only at hRoom ⊢
    split at hRoom
    next hOpen =>
      rw [if_pos hOpen]
      exact h.still rfl rfl
    next hClosed =>
      rw [if_neg hClosed]
      exact h.replay hRoom fun op hOp => hBrings op (.inr hOp)
  | beginAtomic => exact h.beginAtomic
  | commitAtomic => exact h.commitAtomic
  | beginIntention => exact h.quiet rfl rfl rfl rfl (Finset.Subset.refl _)
  | endIntention => exact h.quiet rfl rfl rfl rfl (Finset.Subset.refl _)

end Moves

end Document

end CrdtSync
