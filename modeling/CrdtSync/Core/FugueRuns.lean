import CrdtSync.Core.FugueList

/-!
# Deleted runs

What the run records say of each id: which ids are deleted and the anchor each
was buried with. Splitting and welding change the records and none of this.
-/

namespace CrdtSync

open Lib
open Std (ExtTreeMap)

theorem covers_iff {head id : Stamp} {len : Nat} : covers head len id = true ↔
    head.client = id.client ∧ head.offset = id.offset ∧
      head.lamport ≤ id.lamport ∧ id.lamport < head.lamport + len := by
  simp only [covers, Bool.and_eq_true, beq_iff_eq, decide_eq_true_eq, and_assoc]
  refine and_congr_right fun _ => and_congr_right fun _ => ?_
  omega

theorem covers_head {head : Stamp} {len : Nat} (h : 0 < len) : covers head len head = true :=
  covers_iff.mpr ⟨rfl, rfl, le_rfl, by omega⟩

theorem eq_runId_of_covers {head id : Stamp} {len : Nat} (h : covers head len id = true) :
    id = runId head (id.lamport - head.lamport) := by
  obtain ⟨hClient, hOffset, hLe, -⟩ := covers_iff.mp h
  cases id
  cases head
  simp only [runId, Stamp.mk.injEq] at *
  exact ⟨by omega, hClient.symm, hOffset.symm⟩

theorem covers_runId {head : Stamp} {len i : Nat} : covers head len (runId head i) = true ↔ i < len := by
  rw [covers_iff]
  simp only [runId, true_and]
  omega

theorem covers_one {head id : Stamp} : covers head 1 id = true ↔ id = head := by
  constructor
  · intro h
    have hId := eq_runId_of_covers h
    obtain ⟨-, -, hLe, hLt⟩ := covers_iff.mp h
    rw [show id.lamport - head.lamport = 0 by omega] at hId
    exact hId
  · rintro rfl
    exact covers_head Nat.one_pos

theorem runId_zero (head : Stamp) : runId head 0 = head := rfl

theorem runId_add (head : Stamp) (i j : Nat) : runId (runId head i) j = runId head (i + j) := by
  simp only [runId, Nat.add_assoc]

theorem runId_inj {head : Stamp} {i j : Nat} : runId head i = runId head j ↔ i = j := by
  simp [runId]

namespace Runs

/-- The record at `head` covers `id`. -/
def Holds (dead : Runs) (head : Stamp) (run : DeadRun) (id : Stamp) : Prop :=
  dead[seqKey head]? = some run ∧ covers head run.len id = true

/-- No record is empty and no two records hold one id. -/
structure WF (dead : Runs) : Prop where
  pos : ∀ head run, dead[seqKey head]? = some run → 0 < run.len
  apart : ∀ head run head' run' id, Holds dead head run id → Holds dead head' run' id → head = head'

/-- The anchor of an id of the run from `head`: its own, or the id before it. -/
def chainAnchor (head : Stamp) (anchor : Anchor) (id : Stamp) : Anchor :=
  if head = id then anchor else ⟨some { id with lamport := id.lamport - 1 }, .right⟩

theorem wf_empty : WF ∅ where
  pos _ _ h := by simp at h
  apart _ _ _ _ _ h := by simp [Holds] at h

variable {dead : Runs}

theorem WF.deadRun_eq_some (hWF : WF dead) {id head : Stamp} {run : DeadRun} :
    deadRun dead id = some (head, run) ↔ Holds dead head run id := by
  unfold deadRun
  constructor
  · intro h
    split at h
    · rename_i key run' hLast
      split at h
      · rename_i hCovers
        simp only [Option.some.injEq, Prod.mk.injEq] at h
        obtain ⟨rfl, rfl⟩ := h
        exact ⟨(lastAtMost_eq_some.mp hLast).1, hCovers⟩
      · cases h
    · cases h
  · rintro ⟨hRun, hCovers⟩
    obtain ⟨hClient, hOffset, hLe, hLt⟩ := covers_iff.mp hCovers
    have hLast : lastAtMost dead (seqKey id) = some (seqKey head, run) := by
      refine lastAtMost_eq_some.mpr ⟨hRun, ?_, ?_⟩
      · rw [SeqKey.le_iff]
        exact .inr ⟨hClient, .inr ⟨hOffset, hLe⟩⟩
      · intro key run' hKey hKeyLe
        by_contra hAbove
        have hPos := hWF.pos (seqStamp key) run' hKey
        have hBetween := not_le.mp hAbove
        rw [SeqKey.lt_iff] at hBetween
        rw [SeqKey.le_iff] at hKeyLe
        simp only [seqKey] at hBetween hKeyLe
        have hGroup : key.client = id.client ∧ key.offset = id.offset := by
          rw [← hClient, ← hOffset] at hKeyLe ⊢
          rcases hBetween with h | ⟨h, h' | ⟨h', -⟩⟩
          · rcases hKeyLe with h'' | ⟨h'', -⟩
            · exact absurd (h.trans h'') (lt_irrefl _)
            · exact absurd (h''.symm ▸ h) (lt_irrefl _)
          · rcases hKeyLe with h'' | ⟨-, h'' | ⟨h'', -⟩⟩
            · exact absurd (h ▸ h'') (lt_irrefl _)
            · exact absurd (h'.trans h'') (lt_irrefl _)
            · exact absurd (h''.symm ▸ h') (lt_irrefl _)
          · exact ⟨h.symm, h'.symm⟩
        have hLamport : head.lamport < key.lamport ∧ key.lamport ≤ id.lamport := by
          obtain ⟨hc, ho⟩ := hGroup
          rw [hc, ho, hClient, hOffset] at hBetween
          rw [hc, ho] at hKeyLe
          simp only [lt_irrefl, true_and, false_or] at hBetween hKeyLe
          exact ⟨hBetween, hKeyLe⟩
        have hSame := hWF.apart head run (seqStamp key) run' (seqStamp key)
          ⟨hRun, covers_iff.mpr ⟨hClient.trans hGroup.1.symm, hOffset.trans hGroup.2.symm,
            hLamport.1.le, by simp only [seqStamp]; omega⟩⟩ ⟨hKey, covers_head hPos⟩
        rw [hSame] at hLamport
        exact absurd hLamport.1 (lt_irrefl _)
    rw [hLast]
    simp [hCovers]

theorem WF.deadRun_eq_none (hWF : WF dead) {id : Stamp} :
    deadRun dead id = none ↔ ∀ head run, ¬Holds dead head run id := by
  rw [Option.eq_none_iff_forall_ne_some]
  simp only [ne_eq, Prod.forall, hWF.deadRun_eq_some]

theorem WF.deadAnchorOf_eq_some (hWF : WF dead) {id : Stamp} {anchor : Anchor} :
    deadAnchorOf dead id = some anchor ↔
      ∃ head run, Holds dead head run id ∧ anchor = chainAnchor head run.anchor id := by
  have hChain : ∀ head run, Holds dead head run id →
      (if head = id then some run.anchor
        else some ⟨some (runId head (id.lamport - head.lamport - 1)), .right⟩) =
        some (chainAnchor head run.anchor id) := by
    rintro head run ⟨-, hCovers⟩
    unfold chainAnchor
    split
    · rfl
    · rename_i hNe
      have hId := eq_runId_of_covers hCovers
      obtain ⟨hClient, hOffset, hLe, -⟩ := covers_iff.mp hCovers
      have hLt : head.lamport ≠ id.lamport := by
        intro hEq
        rw [hEq, Nat.sub_self, runId_zero] at hId
        exact hNe hId.symm
      simp only [runId, Option.some.injEq, Anchor.mk.injEq, Stamp.mk.injEq, and_true]
      exact ⟨by omega, hClient, hOffset⟩
  unfold deadAnchorOf
  constructor
  · intro h
    split at h
    · cases h
    · rename_i head run hRun
      have hHolds := hWF.deadRun_eq_some.mp hRun
      rw [hChain head run hHolds] at h
      exact ⟨head, run, hHolds, (Option.some.inj h).symm⟩
  · rintro ⟨head, run, hHolds, rfl⟩
    rw [hWF.deadRun_eq_some.mpr hHolds]
    exact hChain head run hHolds

theorem WF.deadAnchorOf_of_holds (hWF : WF dead) {head id : Stamp} {run : DeadRun}
    (h : Holds dead head run id) :
    deadAnchorOf dead id = some (chainAnchor head run.anchor id) :=
  hWF.deadAnchorOf_eq_some.mpr ⟨head, run, h, rfl⟩

theorem WF.deadAnchorOf_eq_none (hWF : WF dead) {id : Stamp} :
    deadAnchorOf dead id = none ↔ ∀ head run, ¬Holds dead head run id := by
  rw [← hWF.deadRun_eq_none]
  unfold deadAnchorOf
  cases deadRun dead id with
  | none => simp
  | some entry => dsimp only; split <;> simp

/-- The anchors once `len` ids from `head` are deleted over `dead`. -/
def overlay (dead : Runs) (head : Stamp) (len : Nat) (anchor : Anchor) (id : Stamp) :
    Option Anchor :=
  if covers head len id then some (chainAnchor head anchor id) else deadAnchorOf dead id

/-- A stretch of ids none of which is deleted yet. -/
structure Fresh (dead : Runs) (head : Stamp) (len : Nat) : Prop where
  wf : WF dead
  pos : 0 < len
  vacant : ∀ id, covers head len id = true → deadAnchorOf dead id = none

theorem Fresh.not_mem {head : Stamp} {len : Nat} (h : Fresh dead head len) :
    dead[seqKey head]? = none := by
  cases hRun : dead[seqKey head]? with
  | none => rfl
  | some run =>
    have hNone := h.vacant head (covers_head h.pos)
    exact absurd ⟨hRun, covers_head (h.wf.pos head run hRun)⟩ (h.wf.deadAnchorOf_eq_none.mp hNone head run)

theorem holds_insert {head head' id : Stamp} {run run' : DeadRun} :
    Holds (dead.insert (seqKey head) run) head' run' id ↔
      head' = head ∧ run' = run ∧ covers head run.len id = true ∨
        head' ≠ head ∧ Holds dead head' run' id := by
  unfold Holds
  rw [ExtTreeMap.getElem?_insert]
  by_cases h : head' = head
  · subst h
    rw [if_pos Std.ReflCmp.compare_self, Option.some.injEq]
    constructor
    · rintro ⟨rfl, hCovers⟩
      exact .inl ⟨rfl, rfl, hCovers⟩
    · rintro (⟨-, rfl, hCovers⟩ | ⟨h, -⟩)
      · exact ⟨rfl, hCovers⟩
      · exact absurd rfl h
  · have hNe : compare (seqKey head) (seqKey head') ≠ .eq := by
      rw [ne_eq, compare_eq_iff_eq, seqKey_inj]
      exact fun hEq => h hEq.symm
    simp [hNe, h]

theorem holds_erase {head head' id : Stamp} {run' : DeadRun} :
    Holds (dead.erase (seqKey head)) head' run' id ↔ head' ≠ head ∧ Holds dead head' run' id := by
  unfold Holds
  rw [ExtTreeMap.getElem?_erase]
  by_cases h : head' = head
  · subst h
    simp
  · have hNe : compare (seqKey head) (seqKey head') ≠ .eq := by
      rw [ne_eq, compare_eq_iff_eq, seqKey_inj]
      exact fun hEq => h hEq.symm
    simp [hNe, h]

theorem Fresh.insert_wf {head : Stamp} {len : Nat} (h : Fresh dead head len) (anchor : Anchor) :
    WF (dead.insert (seqKey head) ⟨len, anchor⟩) where
  pos head' run' hRun := by
    rw [ExtTreeMap.getElem?_insert] at hRun
    split at hRun
    · obtain rfl := Option.some.inj hRun
      exact h.pos
    · exact h.wf.pos head' run' hRun
  apart head₁ run₁ head₂ run₂ id h₁ h₂ := by
    have hNone : ∀ head' run', Holds dead head' run' id → ¬covers head len id = true :=
      fun head' run' hHolds hCovers => h.wf.deadAnchorOf_eq_none.mp (h.vacant id hCovers) head' run' hHolds
    rcases holds_insert.mp h₁ with ⟨hEq₁, rfl, hc₁⟩ | ⟨-, hOld₁⟩
    · rcases holds_insert.mp h₂ with ⟨hEq₂, -, -⟩ | ⟨-, hOld₂⟩
      · exact hEq₁.trans hEq₂.symm
      · exact absurd hc₁ (hNone _ _ hOld₂)
    · rcases holds_insert.mp h₂ with ⟨-, rfl, hc₂⟩ | ⟨-, hOld₂⟩
      · exact absurd hc₂ (hNone _ _ hOld₁)
      · exact h.wf.apart _ _ _ _ _ hOld₁ hOld₂

theorem Fresh.deadAnchorOf_insert {head : Stamp} {len : Nat} (h : Fresh dead head len)
    (anchor : Anchor) (id : Stamp) :
    deadAnchorOf (dead.insert (seqKey head) ⟨len, anchor⟩) id = overlay dead head len anchor id := by
  have hWF := h.insert_wf anchor
  unfold overlay
  split
  · rename_i hCovers
    have hHolds : Holds (dead.insert (seqKey head) ⟨len, anchor⟩) head ⟨len, anchor⟩ id :=
      holds_insert.mpr (.inl ⟨rfl, rfl, hCovers⟩)
    exact hWF.deadAnchorOf_of_holds hHolds
  · rename_i hCovers
    cases hOld : deadAnchorOf dead id with
    | none =>
      rw [hWF.deadAnchorOf_eq_none]
      intro head' run' hHolds
      rcases holds_insert.mp hHolds with ⟨-, -, hc⟩ | ⟨-, hHolds⟩
      · exact hCovers hc
      · exact h.wf.deadAnchorOf_eq_none.mp hOld _ _ hHolds
    | some anchor' =>
      obtain ⟨head', run', hHolds, rfl⟩ := h.wf.deadAnchorOf_eq_some.mp hOld
      refine hWF.deadAnchorOf_of_holds (holds_insert.mpr (.inr ⟨?_, hHolds⟩))
      rintro rfl
      obtain ⟨hRun, -⟩ := hHolds
      rw [h.not_mem] at hRun
      cases hRun

theorem WF.erase (hWF : WF dead) (head : Stamp) : WF (dead.erase (seqKey head)) where
  pos head' run' hRun := by
    rw [ExtTreeMap.getElem?_erase] at hRun
    split at hRun
    · cases hRun
    · exact hWF.pos head' run' hRun
  apart _ _ _ _ _ h₁ h₂ := hWF.apart _ _ _ _ _ (holds_erase.mp h₁).2 (holds_erase.mp h₂).2

theorem WF.deadAnchorOf_erase (hWF : WF dead) {head : Stamp} {run : DeadRun}
    (hRun : dead[seqKey head]? = some run) (id : Stamp) :
    deadAnchorOf (dead.erase (seqKey head)) id =
      if covers head run.len id then none else deadAnchorOf dead id := by
  have hErase := hWF.erase head
  split
  · rename_i hCovers
    rw [hErase.deadAnchorOf_eq_none]
    intro head' run' hHolds
    obtain ⟨hNe, hHolds⟩ := holds_erase.mp hHolds
    exact hNe (hWF.apart _ _ _ _ _ hHolds ⟨hRun, hCovers⟩)
  · rename_i hCovers
    cases hOld : deadAnchorOf dead id with
    | none =>
      rw [hErase.deadAnchorOf_eq_none]
      exact fun head' run' hHolds =>
        hWF.deadAnchorOf_eq_none.mp hOld _ _ (holds_erase.mp hHolds).2
    | some anchor' =>
      obtain ⟨head', run', hHolds, rfl⟩ := hWF.deadAnchorOf_eq_some.mp hOld
      refine hErase.deadAnchorOf_of_holds (holds_erase.mpr ⟨?_, hHolds⟩)
      rintro rfl
      obtain rfl : run' = run := Option.some.inj (hHolds.1.symm.trans hRun)
      exact hCovers hHolds.2

theorem covers_add {head id : Stamp} {m n : Nat} :
    covers head (m + n) id = true ↔ covers head m id = true ∨ covers (runId head m) n id = true := by
  simp only [covers_iff, runId]
  constructor
  · rintro ⟨hClient, hOffset, hLe, hLt⟩
    by_cases h : id.lamport < head.lamport + m
    · exact .inl ⟨hClient, hOffset, hLe, h⟩
    · exact .inr ⟨hClient, hOffset, by omega, by omega⟩
  · rintro (⟨hClient, hOffset, hLe, hLt⟩ | ⟨hClient, hOffset, hLe, hLt⟩)
    · exact ⟨hClient, hOffset, hLe, by omega⟩
    · exact ⟨hClient, hOffset, by omega, by omega⟩

theorem not_covers_both {head id : Stamp} {m n : Nat} (h : covers head m id = true) :
    ¬covers (runId head m) n id = true := by
  rw [covers_iff] at h ⊢
  simp only [runId]
  omega

/-- The second of two chained stretches hangs on the first as one run would. -/
theorem chainAnchor_add {head id : Stamp} {m n : Nat} {anchor : Anchor} (hm : 0 < m)
    (h : covers (runId head m) n id = true) :
    chainAnchor (runId head m) ⟨some (runId head (m - 1)), .right⟩ id = chainAnchor head anchor id := by
  obtain ⟨hClient, hOffset, hLe, -⟩ := covers_iff.mp h
  simp only [runId] at hLe hClient hOffset
  have hNe : head ≠ id := by
    rintro rfl
    omega
  unfold chainAnchor
  rw [if_neg hNe]
  split
  · rename_i hEq
    subst hEq
    simp only [runId, Anchor.mk.injEq, Option.some.injEq, Stamp.mk.injEq, and_true]
    omega
  · rfl

theorem Fresh.join_before {head : Stamp} {m n : Nat} {anchor : Anchor}
    (h : Fresh dead (runId head m) n) (hRun : dead[seqKey head]? = some ⟨m, anchor⟩) :
    Fresh (dead.erase (seqKey head)) head (m + n) ∧ ∀ id,
      overlay (dead.erase (seqKey head)) head (m + n) anchor id =
        overlay dead (runId head m) n ⟨some (runId head (m - 1)), .right⟩ id := by
  have hm : 0 < m := h.wf.pos head _ hRun
  refine ⟨⟨h.wf.erase head, by omega, ?_⟩, ?_⟩
  · intro id hCovers
    rw [h.wf.deadAnchorOf_erase hRun]
    rcases covers_add.mp hCovers with hFirst | hSecond
    · simp [hFirst]
    · split
      · rfl
      · exact h.vacant id hSecond
  · intro id
    simp only [overlay, h.wf.deadAnchorOf_erase hRun]
    by_cases hFirst : covers head m id = true
    · rw [if_pos (covers_add.mpr (.inl hFirst)), if_neg (not_covers_both hFirst)]
      have hHolds : Holds dead head ⟨m, anchor⟩ id := ⟨hRun, hFirst⟩
      exact (h.wf.deadAnchorOf_of_holds hHolds).symm
    · by_cases hSecond : covers (runId head m) n id = true
      · rw [if_pos (covers_add.mpr (.inr hSecond)), if_pos hSecond, chainAnchor_add hm hSecond]
      · rw [if_neg (fun hBoth => (covers_add.mp hBoth).elim hFirst hSecond), if_neg hSecond,
          if_neg hFirst]

theorem Fresh.join_after {head : Stamp} {m n : Nat} (h : Fresh dead head m)
    (hRun : dead[seqKey (runId head m)]? = some ⟨n, ⟨some (runId head (m - 1)), .right⟩⟩) :
    Fresh (dead.erase (seqKey (runId head m))) head (m + n) ∧ ∀ anchor id,
      overlay (dead.erase (seqKey (runId head m))) head (m + n) anchor id =
        overlay dead head m anchor id := by
  have hm := h.pos
  refine ⟨⟨h.wf.erase _, by omega, ?_⟩, ?_⟩
  · intro id hCovers
    rw [h.wf.deadAnchorOf_erase hRun]
    rcases covers_add.mp hCovers with hFirst | hSecond
    · split
      · rfl
      · exact h.vacant id hFirst
    · simp [hSecond]
  · intro anchor id
    simp only [overlay, h.wf.deadAnchorOf_erase hRun]
    by_cases hFirst : covers head m id = true
    · rw [if_pos (covers_add.mpr (.inl hFirst)), if_pos hFirst]
    · rw [if_neg hFirst]
      by_cases hSecond : covers (runId head m) n id = true
      · rw [if_pos (covers_add.mpr (.inr hSecond)), ← chainAnchor_add hm hSecond]
        exact (h.wf.deadAnchorOf_of_holds ⟨hRun, hSecond⟩).symm
      · rw [if_neg (fun hBoth => (covers_add.mp hBoth).elim hFirst hSecond), if_neg hSecond]

theorem weldBefore_spec {head : Stamp} {len : Nat} (h : Fresh dead head len) (anchor : Anchor) :
    ∃ dead' head' len' anchor', weldBefore dead head len anchor = (dead', head', len', anchor') ∧
      Fresh dead' head' len' ∧
      ∀ id, overlay dead' head' len' anchor' id = overlay dead head len anchor id := by
  have hKeep : ∃ dead' head' len' anchor', (dead, head, len, anchor) = (dead', head', len', anchor') ∧
      Fresh dead' head' len' ∧
      ∀ id, overlay dead' head' len' anchor' id = overlay dead head len anchor id :=
    ⟨dead, head, len, anchor, rfl, h, fun _ => rfl⟩
  unfold weldBefore
  split
  · exact hKeep
  · rename_i lamport hSub
    have hLamport := checkedSub_eq_some.mp hSub
    dsimp only
    split
    · rename_i hAnchor
      split
      · rename_i phead prun hRun
        split
        · rename_i hEnd
          obtain ⟨hEntry, -⟩ := h.wf.deadRun_eq_some.mp hRun
          have hPos := h.wf.pos phead prun hEntry
          have hHead : head = runId phead prun.len := by
            obtain ⟨hEndLamport, hClient, hOffset⟩ := Stamp.mk.injEq .. ▸ hEnd
            cases head
            simp only [runId, Stamp.mk.injEq] at *
            exact ⟨by omega, hClient.symm, hOffset.symm⟩
          subst hHead
          obtain ⟨hFresh, hOverlay⟩ := h.join_before hEntry
          refine ⟨_, _, _, _, rfl, Nat.add_comm len _ ▸ hFresh, fun id => ?_⟩
          rw [Nat.add_comm len, hOverlay id, hAnchor, ← hEnd]
        · exact hKeep
      · exact hKeep
    · exact hKeep

theorem weldAfter_spec {head : Stamp} {len : Nat} (h : Fresh dead head len) :
    ∃ dead' len', weldAfter dead head len = (dead', len') ∧ Fresh dead' head len' ∧
      ∀ anchor id, overlay dead' head len' anchor id = overlay dead head len anchor id := by
  have hKeep : ∃ dead' len', (dead, len) = (dead', len') ∧ Fresh dead' head len' ∧
      ∀ anchor id, overlay dead' head len' anchor id = overlay dead head len anchor id :=
    ⟨dead, len, rfl, h, fun _ _ => rfl⟩
  unfold weldAfter
  dsimp only
  split
  · exact hKeep
  · rename_i lamport hAdd
    obtain ⟨hLamport, -⟩ := checkedAdd_eq_some.mp hAdd
    have hNext : ({ runId head (len - 1) with lamport } : Stamp) = runId head len := by
      have hPos := h.pos
      simp only [runId, Stamp.mk.injEq, and_true] at hLamport ⊢
      omega
    rw [hNext]
    split
    · rename_i nrun hRun
      split
      · rename_i hAnchor
        obtain ⟨hFresh, hOverlay⟩ := h.join_after (n := nrun.len) (hAnchor ▸ hRun)
        exact ⟨_, _, rfl, hFresh, hOverlay⟩
      · exact hKeep
    · exact hKeep

/-- Deleting a stretch welds records and changes only the anchors of its ids. -/
theorem addDead_spec {head : Stamp} {len : Nat} (h : Fresh dead head len) (anchor : Anchor) :
    WF (addDead dead head len anchor) ∧
      ∀ id, deadAnchorOf (addDead dead head len anchor) id = overlay dead head len anchor id := by
  obtain ⟨dead₁, head₁, len₁, anchor₁, hBefore, hFresh₁, hOverlay₁⟩ := weldBefore_spec h anchor
  obtain ⟨dead₂, len₂, hAfter, hFresh₂, hOverlay₂⟩ := weldAfter_spec hFresh₁
  unfold addDead
  rw [hBefore]
  dsimp only
  rw [hAfter]
  refine ⟨hFresh₂.insert_wf anchor₁, fun id => ?_⟩
  rw [hFresh₂.deadAnchorOf_insert anchor₁ id, hOverlay₂, hOverlay₁]

theorem WF.putDead_spec (hWF : WF dead) {head : Stamp} {len : Nat}
    (hVacant : ∀ id, covers head len id = true → deadAnchorOf dead id = none) (anchor : Anchor) :
    WF (putDead dead head len anchor) ∧
      ∀ id, deadAnchorOf (putDead dead head len anchor) id = overlay dead head len anchor id := by
  unfold putDead
  split
  · rename_i hZero
    subst hZero
    refine ⟨hWF, fun id => ?_⟩
    have hCovers : ¬covers head 0 id = true := by
      rw [covers_iff]
      omega
    rw [overlay, if_neg hCovers]
  · rename_i hNonzero
    have hFresh : Fresh dead head len := ⟨hWF, by omega, hVacant⟩
    exact ⟨hFresh.insert_wf anchor, hFresh.deadAnchorOf_insert anchor⟩

theorem WF.takeDead_eq_none (hWF : WF dead) {id : Stamp} :
    takeDead dead id = none ↔ deadAnchorOf dead id = none := by
  rw [hWF.deadAnchorOf_eq_none, ← hWF.deadRun_eq_none]
  unfold takeDead
  cases deadRun dead id <;> simp

theorem WF.takeDead_spec (hWF : WF dead) {id : Stamp} {dead' : Runs}
    (h : takeDead dead id = some dead') :
    WF dead' ∧ ∀ x, deadAnchorOf dead' x = if x = id then none else deadAnchorOf dead x := by
  unfold takeDead at h
  split at h
  · cases h
  · rename_i head run hRun
    have hHolds := hWF.deadRun_eq_some.mp hRun
    obtain ⟨hEntry, hCovers⟩ := hHolds
    obtain ⟨-, -, hLe, hLt⟩ := covers_iff.mp hCovers
    have hId := eq_runId_of_covers hCovers
    obtain ⟨before, hBefore⟩ : ∃ before, before = id.lamport - head.lamport := ⟨_, rfl⟩
    obtain ⟨after, hAfter⟩ : ∃ after, after = run.len - before - 1 := ⟨_, rfl⟩
    rw [← hBefore] at hId
    have hLen : run.len = before + (1 + after) := by omega
    simp only [← hBefore, ← hAfter, Option.some.injEq] at h
    have hErase := hWF.erase head
    have hGone := hWF.deadAnchorOf_erase hEntry
    rw [hLen] at hGone
    obtain ⟨hWF₁, hAnchor₁⟩ := @WF.putDead_spec _ hErase head before (fun x hx => by
      rw [hGone, if_pos (covers_add.mpr (.inl hx))]) run.anchor
    obtain ⟨hWF₂, hAnchor₂⟩ := @WF.putDead_spec _ hWF₁ (runId head (before + 1)) after
      (fun x hx => by
        have hRest : covers (runId head before) (1 + after) x = true :=
          covers_add.mpr (.inr (by rwa [runId_add]))
        rw [hAnchor₁, overlay, if_neg, hGone, if_pos (covers_add.mpr (.inr hRest))]
        exact fun hFirst => not_covers_both hFirst hRest) ⟨some id, .right⟩
    have hSame : dead' = putDead (putDead (dead.erase (seqKey head)) head before run.anchor)
        (runId head (before + 1)) after ⟨some id, .right⟩ := by
      rw [← h]
      split
      · rfl
      · rw [putDead.eq_def _ (runId head (before + 1)), if_pos (by omega)]
    subst hSame
    refine ⟨hWF₂, fun x => ?_⟩
    rw [hAnchor₂, overlay, hAnchor₁, overlay, hGone]
    have hWhole : covers head (before + (1 + after)) x = true ↔ covers head before x = true ∨
        x = id ∨ covers (runId head (before + 1)) after x = true := by
      rw [covers_add, covers_add, runId_add, covers_one, ← hId]
    have hOld : covers head (before + (1 + after)) x = true →
        deadAnchorOf dead x = some (chainAnchor head run.anchor x) := by
      intro hx
      exact hWF.deadAnchorOf_of_holds ⟨hEntry, hLen ▸ hx⟩
    by_cases hxid : x = id
    · subst hxid
      have hFirst : ¬covers head before x = true := by
        rw [covers_iff]
        omega
      have hSecond : ¬covers (runId head (before + 1)) after x = true := by
        rw [covers_iff]
        simp only [runId]
        omega
      rw [if_neg hSecond, if_neg hFirst, if_pos (hWhole.mpr (.inr (.inl rfl))), if_pos rfl]
    · rw [if_neg hxid]
      by_cases hSecond : covers (runId head (before + 1)) after x = true
      · rw [if_pos hSecond, hOld (hWhole.mpr (.inr (.inr hSecond)))]
        have hChain := @chainAnchor_add head x (before + 1) after run.anchor (Nat.succ_pos before) hSecond
        rw [Nat.add_sub_cancel, ← hId] at hChain
        rw [hChain]
      · rw [if_neg hSecond]
        by_cases hFirst : covers head before x = true
        · rw [if_pos hFirst, hOld (hWhole.mpr (.inl hFirst))]
        · rw [if_neg hFirst, if_neg]
          exact fun hAll => (hWhole.mp hAll).elim hFirst fun hRest => hRest.elim hxid hSecond

end Runs

end CrdtSync
