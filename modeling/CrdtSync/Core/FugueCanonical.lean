import CrdtSync.Core.FugueRefinement

/-!
# Maximal runs

No two neighbouring runs of a list could be welded into one. Seating an id splits a
run and welds again where it chains, so every operation keeps this, and the runs are
then settled by which ids are deleted and where each of them hangs.
-/

namespace CrdtSync

open Lib
open Std (ExtTreeMap)

namespace Runs

variable {dead dead' : Runs}

/-- No record continues the one that ends just before it. -/
def Maximal (dead : Runs) : Prop :=
  ∀ head run next, dead[seqKey head]? = some run →
    dead[seqKey (runId head run.len)]? = some next →
      next.anchor ≠ ⟨some (runId head (run.len - 1)), .right⟩

/-- No deleted id is past the last lamport. -/
def Sized (dead : Runs) : Prop := ∀ id, deadAnchorOf dead id ≠ none → id.lamport ≤ u64Max

theorem getElem?_insert_run (dead : Runs) (head p : Stamp) (run : DeadRun) :
    (dead.insert (seqKey head) run)[seqKey p]? = if p = head then some run else dead[seqKey p]? := by
  simp only [getElem?_insert_ite, seqKey_inj]

theorem getElem?_erase_run (dead : Runs) (head p : Stamp) :
    (dead.erase (seqKey head))[seqKey p]? = if p = head then none else dead[seqKey p]? := by
  simp only [getElem?_erase_ite, seqKey_inj]

theorem getElem?_putDead (dead : Runs) (head p : Stamp) (len : Nat) (anchor : Anchor) :
    (putDead dead head len anchor)[seqKey p]? =
      if 0 < len ∧ p = head then some ⟨len, anchor⟩ else dead[seqKey p]? := by
  unfold putDead
  split
  next hZero => rw [if_neg fun h => h.1.ne' hZero]
  next hNonzero =>
    rw [getElem?_insert_run]
    simp only [Nat.pos_of_ne_zero hNonzero, true_and]

theorem maximal_empty : Maximal ∅ := by
  intro head run next h
  simp at h

theorem Maximal.erase (h : Maximal dead) (head : Stamp) : Maximal (dead.erase (seqKey head)) := by
  intro p run next hRun hNext
  rw [getElem?_erase_run] at hRun hNext
  split at hRun
  · cases hRun
  split at hNext
  · cases hNext
  exact h p run next hRun hNext

/-- A stretch that continues no record and is continued by none. -/
structure Sealed (dead : Runs) (head : Stamp) (len : Nat) (anchor : Anchor) : Prop where
  before : ∀ p run, dead[seqKey p]? = some run → runId p run.len = head →
    anchor ≠ ⟨some (runId p (run.len - 1)), .right⟩
  after : ∀ next, dead[seqKey (runId head len)]? = some next →
    next.anchor ≠ ⟨some (runId head (len - 1)), .right⟩

theorem Maximal.insert (h : Maximal dead) {head : Stamp} {len : Nat} {anchor : Anchor}
    (hPos : 0 < len) (hSealed : Sealed dead head len anchor) :
    Maximal (dead.insert (seqKey head) ⟨len, anchor⟩) := by
  intro p run next hRun hNext
  rw [getElem?_insert_run] at hRun hNext
  split at hRun
  next hHead =>
    subst hHead
    cases hRun
    rw [if_neg] at hNext
    · exact hSealed.after next hNext
    · intro hEq
      have hLamport := congrArg Stamp.lamport hEq
      simp only [runId] at hLamport
      omega
  next =>
    split at hNext
    next hEq =>
      cases hNext
      exact hSealed.before p run hRun hEq
    next => exact h p run next hRun hNext

theorem WF.deadRun_before (hWF : WF dead) {p head : Stamp} {run : DeadRun}
    (hRun : dead[seqKey p]? = some run) (hEnd : runId p run.len = head) :
    deadRun dead (runId p (run.len - 1)) = some (p, run) ∧
      checkedSub head.lamport 1 = some (runId p (run.len - 1)).lamport ∧
      ({ head with lamport := (runId p (run.len - 1)).lamport } : Stamp) = runId p (run.len - 1) := by
  have hPos := hWF.pos p run hRun
  refine ⟨hWF.deadRun_eq_some.mpr ⟨hRun, covers_runId.mpr (by omega)⟩, ?_, ?_⟩
  · rw [checkedSub_eq_some, ← hEnd]
    simp only [runId]
    omega
  · rw [← hEnd]
    rfl

/-- What the weld with the record before leaves continues no record. -/
theorem weldBefore_sealed {head : Stamp} {len : Nat} (h : Fresh dead head len) (hMax : Maximal dead)
    (anchor : Anchor) {dead₁ : Runs} {head₁ : Stamp} {len₁ : Nat} {anchor₁ : Anchor}
    (hWeld : weldBefore dead head len anchor = (dead₁, head₁, len₁, anchor₁)) :
    Maximal dead₁ ∧ (∀ x, deadAnchorOf dead x = none → deadAnchorOf dead₁ x = none) ∧
      ∀ p run, dead₁[seqKey p]? = some run → runId p run.len = head₁ →
        anchor₁ ≠ ⟨some (runId p (run.len - 1)), .right⟩ := by
  by_cases hOpen : ∃ p run, dead[seqKey p]? = some run ∧ runId p run.len = head ∧
      anchor = ⟨some (runId p (run.len - 1)), .right⟩
  · obtain ⟨p, run, hRun, hEnd, rfl⟩ := hOpen
    obtain ⟨hDeadRun, hSub, hPrev⟩ := h.wf.deadRun_before hRun hEnd
    unfold weldBefore at hWeld
    rw [hSub] at hWeld
    dsimp only at hWeld
    rw [hPrev, if_pos rfl, hDeadRun] at hWeld
    dsimp only at hWeld
    rw [if_pos rfl] at hWeld
    cases hWeld
    refine ⟨hMax.erase head₁, fun x hx => ?_, fun q qrun hq hEndQ => ?_⟩
    · rw [h.wf.deadAnchorOf_erase hRun]
      split
      · rfl
      · exact hx
    · rw [getElem?_erase_run] at hq
      split at hq
      · cases hq
      · exact hMax q qrun run hq (hEndQ ▸ hRun)
  · have hKeep : weldBefore dead head len anchor = (dead, head, len, anchor) := by
      unfold weldBefore
      split
      · rfl
      next lamport hSub =>
        dsimp only
        split
        next hAnchor =>
          split
          next p run hRun =>
            split
            next hEnd =>
              obtain ⟨hEntry, -⟩ := h.wf.deadRun_eq_some.mp hRun
              have hPos := h.wf.pos p run hEntry
              refine absurd ⟨p, run, hEntry, ?_, hEnd ▸ hAnchor⟩ hOpen
              have hLamport := checkedSub_eq_some.mp hSub
              obtain ⟨hEndLamport, hClient, hOffset⟩ := Stamp.mk.injEq .. ▸ hEnd
              cases head
              simp only [runId, Stamp.mk.injEq] at *
              exact ⟨by omega, hClient, hOffset⟩
            next => rfl
          next => rfl
        next => rfl
    rw [hKeep] at hWeld
    cases hWeld
    exact ⟨hMax, fun _ hx => hx, fun p run hRun hEnd hEq => hOpen ⟨p, run, hRun, hEnd, hEq⟩⟩

/-- What the weld with the record after leaves is continued by no record. -/
theorem weldAfter_sealed {head : Stamp} {len : Nat} {anchor : Anchor} (h : Fresh dead head len)
    (hMax : Maximal dead) (hSized : Sized dead)
    (hBefore : ∀ p run, dead[seqKey p]? = some run → runId p run.len = head →
      anchor ≠ ⟨some (runId p (run.len - 1)), .right⟩)
    {dead₁ : Runs} {len₁ : Nat} (hWeld : weldAfter dead head len = (dead₁, len₁)) :
    Maximal dead₁ ∧ Sealed dead₁ head len₁ anchor := by
  have hPos := h.pos
  by_cases hOpen : ∃ next, dead[seqKey (runId head len)]? = some next ∧
      next.anchor = ⟨some (runId head (len - 1)), .right⟩
  · obtain ⟨next, hNext, hAnchor⟩ := hOpen
    have hNextPos := h.wf.pos _ next hNext
    have hLamport : checkedAdd (runId head (len - 1)).lamport 1 = some (runId head len).lamport := by
      have hHeld := h.wf.deadAnchorOf_of_holds ⟨hNext, covers_head hNextPos⟩
      have hBound := hSized (runId head len) (by rw [hHeld]; exact Option.some_ne_none _)
      rw [checkedAdd_eq_some]
      simp only [runId] at hBound ⊢
      omega
    unfold weldAfter at hWeld
    dsimp only at hWeld
    rw [hLamport] at hWeld
    dsimp only at hWeld
    have hKey : ({ runId head (len - 1) with lamport := (runId head len).lamport } : Stamp) =
        runId head len := rfl
    rw [hKey, hNext] at hWeld
    dsimp only at hWeld
    rw [if_pos hAnchor] at hWeld
    cases hWeld
    refine ⟨hMax.erase _, fun p run hRun hEnd => ?_, fun next' hNext' => ?_⟩
    · rw [getElem?_erase_run] at hRun
      split at hRun
      · cases hRun
      · exact hBefore p run hRun hEnd
    · rw [getElem?_erase_run] at hNext'
      split at hNext'
      · cases hNext'
      · have hApart := hMax (runId head len) next next' hNext (by rwa [runId_add])
        rwa [runId_add, show len + (next.len - 1) = len + next.len - 1 by omega] at hApart
  · have hKeep : weldAfter dead head len = (dead, len) := by
      unfold weldAfter
      dsimp only
      split
      · rfl
      next lamport hAdd =>
        have hNext : ({ runId head (len - 1) with lamport } : Stamp) = runId head len := by
          obtain ⟨hLamport, -⟩ := checkedAdd_eq_some.mp hAdd
          simp only [runId, Stamp.mk.injEq, and_true] at hLamport ⊢
          omega
        rw [hNext]
        split
        next next hRun =>
          split
          next hAnchor => exact absurd ⟨next, hRun, hAnchor⟩ hOpen
          next => rfl
        next => rfl
    rw [hKeep] at hWeld
    cases hWeld
    exact ⟨hMax, hBefore, fun next hNext hEq => hOpen ⟨next, hNext, hEq⟩⟩

/-- Deleting a stretch leaves no two records that could be one. -/
theorem Maximal.addDead (hMax : Maximal dead) {head : Stamp} {len : Nat} (h : Fresh dead head len)
    (hSized : Sized dead) (anchor : Anchor) : Maximal (addDead dead head len anchor) := by
  obtain ⟨dead₁, head₁, len₁, anchor₁, hBefore, hFresh₁, -⟩ := weldBefore_spec h anchor
  obtain ⟨dead₂, len₂, hAfter, hFresh₂, -⟩ := weldAfter_spec hFresh₁
  obtain ⟨hMax₁, hGone, hSealed₁⟩ := weldBefore_sealed h hMax anchor hBefore
  have hSized₁ : Sized dead₁ := fun x hx => hSized x fun hNone => hx (hGone x hNone)
  obtain ⟨hMax₂, hSealed₂⟩ := weldAfter_sealed hFresh₁ hMax₁ hSized₁ hSealed₁ hAfter
  unfold Runs.addDead
  rw [hBefore]
  dsimp only
  rw [hAfter]
  exact hMax₂.insert hFresh₂.pos hSealed₂

/-- The pieces a lifted id leaves are apart by that id. -/
theorem Maximal.takeDead (hMax : Maximal dead) (hWF : WF dead) {id : Stamp}
    (h : takeDead dead id = some dead') : Maximal dead' := by
  unfold Runs.takeDead at h
  split at h
  · cases h
  next head run hRun =>
    obtain ⟨hEntry, hCovers⟩ := hWF.deadRun_eq_some.mp hRun
    have hId := eq_runId_of_covers hCovers
    obtain ⟨-, -, hLe, hLt⟩ := covers_iff.mp hCovers
    obtain ⟨before, hBefore⟩ : ∃ before, before = id.lamport - head.lamport := ⟨_, rfl⟩
    obtain ⟨after, hAfter⟩ : ∃ after, after = run.len - before - 1 := ⟨_, rfl⟩
    rw [← hBefore] at hId
    simp only [← hBefore, ← hAfter, Option.some.injEq] at h
    have hLen : run.len = before + 1 + after := by omega
    -- A record that starts inside the run is the run itself.
    have hInside : ∀ qrun i, i < run.len → dead[seqKey (runId head i)]? = some qrun → i = 0 := by
      intro qrun i hi hq
      have hSame := hWF.apart _ _ _ _ (runId head i) ⟨hEntry, covers_runId.mpr hi⟩
        ⟨hq, covers_head (hWF.pos _ qrun hq)⟩
      exact runId_inj.mp (hSame.symm.trans (runId_zero head).symm)
    have hFirst : Maximal (putDead (dead.erase (seqKey head)) head before run.anchor) := by
      unfold putDead
      split
      · exact hMax.erase head
      next hPos =>
        refine (hMax.erase head).insert (Nat.pos_of_ne_zero hPos) ⟨fun p prun hp hEnd => ?_,
          fun next hNext => ?_⟩
        · rw [getElem?_erase_run] at hp
          split at hp
          · cases hp
          · exact hMax p prun run hp (hEnd ▸ hEntry)
        · rw [getElem?_erase_run] at hNext
          split at hNext
          · cases hNext
          · exact absurd (hInside next before (by omega) hNext) hPos
    subst h
    split
    next hPos =>
      rw [putDead.eq_def _ (runId head (before + 1)), if_neg hPos.ne']
      refine hFirst.insert hPos ⟨fun p prun hp hEnd => ?_, fun next hNext => ?_⟩
      · -- A record that ended at the id would hold it, and only the run lifted did.
        have hEndLamport := congrArg Stamp.lamport hEnd
        have hEndClient := congrArg Stamp.client hEnd
        have hEndOffset := congrArg Stamp.offset hEnd
        simp only [runId] at hEndLamport hEndClient hEndOffset
        rw [getElem?_putDead] at hp
        split at hp
        next hHead =>
          obtain ⟨-, rfl⟩ := hHead
          cases hp
          dsimp only at hEndLamport
          omega
        next =>
          rw [getElem?_erase_run] at hp
          split at hp
          · cases hp
          next hNe =>
            have hPrunPos := hWF.pos p prun hp
            have hHeld : covers p prun.len id = true := by
              rw [covers_iff, hId]
              simp only [runId]
              exact ⟨hEndClient, hEndOffset, by omega, by omega⟩
            exact absurd (hWF.apart _ _ _ _ id ⟨hp, hHeld⟩ ⟨hEntry, hCovers⟩) hNe
      · have hNe : ¬runId head run.len = head := by
          intro hEq
          have hZero := runId_inj.mp (hEq.trans (runId_zero head).symm)
          omega
        rw [runId_add, ← hLen, getElem?_putDead, if_neg fun h => hNe h.2, getElem?_erase_run,
          if_neg hNe] at hNext
        have hApart := hMax head run next hEntry hNext
        rwa [runId_add, show before + 1 + (after - 1) = run.len - 1 by omega]
    next => exact hFirst

section Settled

variable (hWF : WF dead) (hWF' : WF dead') (hMax : Maximal dead) (hMax' : Maximal dead')
  (hSame : ∀ id, deadAnchorOf dead id = deadAnchorOf dead' id)
include hWF hWF' hMax hSame

/-- An id that heads a maximal run heads one wherever the same ids are deleted. -/
theorem head_of_anchors {head : Stamp} {run : DeadRun} (hRun : dead[seqKey head]? = some run) :
    ∃ run', dead'[seqKey head]? = some run' ∧ run'.anchor = run.anchor := by
  have hHolds : Holds dead head run head := ⟨hRun, covers_head (hWF.pos head run hRun)⟩
  have hAnchor := hWF.deadAnchorOf_of_holds hHolds
  rw [hSame, chainAnchor, if_pos rfl] at hAnchor
  obtain ⟨head', run', hHolds', hChain⟩ := hWF'.deadAnchorOf_eq_some.mp hAnchor
  have hHead := eq_runId_of_covers hHolds'.2
  obtain ⟨-, -, hLe, hLt⟩ := covers_iff.mp hHolds'.2
  obtain ⟨k, hk⟩ : ∃ k, k = head.lamport - head'.lamport := ⟨_, rfl⟩
  rw [← hk] at hHead
  rcases Nat.eq_zero_or_pos k with hZero | hPos
  · rw [hZero, runId_zero] at hHead
    subst hHead
    rw [chainAnchor, if_pos rfl] at hChain
    exact ⟨run', hHolds'.1, hChain.symm⟩
  · -- The id before it is deleted too, so its run ends there and the anchor chains onto it.
    have hPrev : Holds dead' head' run' (runId head' (k - 1)) :=
      ⟨hHolds'.1, covers_runId.mpr (by omega)⟩
    have hPrevAnchor := hWF'.deadAnchorOf_of_holds hPrev
    rw [← hSame] at hPrevAnchor
    obtain ⟨p, prun, hHeld, -⟩ := hWF.deadAnchorOf_eq_some.mp hPrevAnchor
    obtain ⟨hClient, hOffset, hLow, hHigh⟩ := covers_iff.mp hHeld.2
    have hEnd : runId p prun.len = head := by
      have hPast : p.lamport + prun.len ≤ head.lamport := by
        by_contra hInside
        have hCovers : covers p prun.len head = true := by
          rw [covers_iff]
          rw [hHead] at hInside ⊢
          simp only [runId] at *
          exact ⟨hClient, hOffset, by omega, by omega⟩
        have hEq := hWF.apart _ _ _ _ head ⟨hHeld.1, hCovers⟩ hHolds
        rw [hEq, hHead] at hLow
        simp only [runId] at hLow
        omega
      rw [hHead] at hPast ⊢
      cases p
      simp only [runId, Stamp.mk.injEq] at *
      exact ⟨by omega, hClient, hOffset⟩
    have hApart := hMax p prun run hHeld.1 (hEnd ▸ hRun)
    refine absurd ?_ hApart
    rw [chainAnchor, if_neg, hHead] at hChain
    · rw [hChain]
      have hLast : runId p (prun.len - 1) = runId head' (k - 1) := by
        have hLamport := congrArg Stamp.lamport (hEnd.trans hHead)
        cases p
        simp only [runId, Stamp.mk.injEq] at *
        exact ⟨by omega, hClient, hOffset⟩
      rw [hLast]
      simp only [runId, Anchor.mk.injEq, Option.some.injEq, Stamp.mk.injEq, and_true]
      omega
    · rintro rfl
      omega

theorem len_le_of_anchors {head : Stamp} {run run' : DeadRun} (hRun : dead[seqKey head]? = some run)
    (hRun' : dead'[seqKey head]? = some run') : run'.len ≤ run.len := by
  by_contra hLonger
  have hPos := hWF.pos head run hRun
  have hHolds' : Holds dead' head run' (runId head run.len) :=
    ⟨hRun', covers_runId.mpr (by omega)⟩
  have hAnchor := hWF'.deadAnchorOf_of_holds hHolds'
  have hNe : ¬head = runId head run.len := by
    intro hEq
    have hZero := runId_inj.mp ((runId_zero head).trans hEq)
    omega
  rw [← hSame, chainAnchor, if_neg hNe] at hAnchor
  obtain ⟨q, qrun, hHeld, hChain⟩ := hWF.deadAnchorOf_eq_some.mp hAnchor
  have hLast : ({ runId head run.len with lamport := (runId head run.len).lamport - 1 } : Stamp) =
      runId head (run.len - 1) := by
    simp only [runId, Stamp.mk.injEq, and_true]
    omega
  rw [hLast] at hChain
  by_cases hq : q = runId head run.len
  · subst hq
    rw [chainAnchor, if_pos rfl] at hChain
    exact hMax head run qrun hRun hHeld.1 hChain.symm
  · -- Then the id before is in the same run, which is the one from `head`.
    obtain ⟨hClient, hOffset, hLow, hHigh⟩ := covers_iff.mp hHeld.2
    have hBelow : q.lamport ≠ (runId head run.len).lamport := by
      intro hEq
      apply hq
      cases q
      simp only [runId, Stamp.mk.injEq] at *
      exact ⟨hEq, hClient, hOffset⟩
    have hBoth : covers q qrun.len (runId head (run.len - 1)) = true := by
      rw [covers_iff]
      simp only [runId] at *
      exact ⟨hClient, hOffset, by omega, by omega⟩
    obtain rfl := hWF.apart _ _ _ _ _ ⟨hHeld.1, hBoth⟩ ⟨hRun, covers_runId.mpr (by omega)⟩
    obtain rfl : qrun = run := Option.some.inj (hHeld.1.symm.trans hRun)
    have hSelf := covers_runId.mp hHeld.2
    exact absurd hSelf (lt_irrefl _)

include hMax'

/-- Maximal runs are settled by the anchors of the deleted ids. -/
theorem eq_of_anchors : dead = dead' := by
  have hRecord : ∀ {d d' : Runs}, WF d → WF d' → Maximal d → Maximal d' →
      (∀ id, deadAnchorOf d id = deadAnchorOf d' id) → ∀ (key : SeqKey) (run : DeadRun),
        d[key]? = some run → d'[key]? = some run := by
    intro d d' hd hd' hm hm' hs key run hRun
    rw [← seqKey_seqStamp key] at hRun ⊢
    obtain ⟨run', hRun', hAnchor⟩ := head_of_anchors hd hd' hm hs hRun
    have hLe := len_le_of_anchors hd hd' hm hs hRun hRun'
    have hGe := len_le_of_anchors hd' hd hm' (fun id => (hs id).symm) hRun' hRun
    rw [hRun']
    cases run
    cases run'
    simp only [DeadRun.mk.injEq, Option.some.injEq] at *
    exact ⟨by omega, hAnchor⟩
  refine ExtTreeMap.ext_getElem? fun key => ?_
  cases hRun : dead[key]? with
  | some run => exact (hRecord hWF hWF' hMax hMax' hSame key run hRun).symm
  | none =>
    cases hRun' : dead'[key]? with
    | none => rfl
    | some run' =>
      have hBack := hRecord hWF' hWF hMax' hMax (fun id => (hSame id).symm) key run' hRun'
      rw [hRun] at hBack
      cases hBack

end Settled

end Runs

namespace FugueList

open Runs SeqValue

variable {V : Type} {l l' : FugueList V}

/-- Nodes and runs are apart, no two runs could be one, and every id is a `u64` lamport. -/
structure Canonical (l : FugueList V) : Prop where
  wf : l.WF
  maximal : Runs.Maximal l.dead
  sized : ∀ x, l.cellAt x ≠ none → x.lamport ≤ u64Max

namespace Canonical

theorem new (id : ElementId) : (FugueList.new id : FugueList V).Canonical where
  wf := wf_new id
  maximal := maximal_empty
  sized x hx := by
    have hNone : (FugueList.new id : FugueList V).cellAt x = none := by
      refine cellAt_eq_none.mpr ⟨by simp [FugueList.new], ?_⟩
      rw [FugueList.new, wf_empty.deadAnchorOf_eq_none]
      intro head run hHolds
      simp [Holds] at hHolds
    exact absurd hNone hx

variable (h : l.Canonical)
include h

theorem runsSized : Runs.Sized l.dead := by
  intro x hx
  exact h.sized x fun hNone => hx (cellAt_eq_none.mp hNone).2

theorem rewrites {on : Stamp → Prop} {f : Stamp → Option (Cell V) → Option (Cell V)}
    (hRewrites : Rewrites l l' on f) (hMax : Runs.Maximal l'.dead)
    (hOn : ∀ x, on x → f x none ≠ none → x.lamport ≤ u64Max) : l'.Canonical where
  wf := hRewrites.wf
  maximal := hMax
  sized x hx := by
    by_cases hHeld : l.cellAt x = none
    · by_cases hIn : on x
      · rw [hRewrites.inside x hIn, hHeld] at hx
        exact hOn x hIn hx
      · rw [hRewrites.outside x hIn] at hx
        exact absurd hHeld hx
    · exact h.sized x hHeld

/-- A node's id is not deleted yet. -/
theorem fresh_node {id : Stamp} {n : Node V} (hNode : l.nodes[seqKey id]? = some n) :
    Fresh l.dead id 1 := by
  refine ⟨h.wf.runs, Nat.one_pos, fun x hx => ?_⟩
  obtain rfl := covers_one.mp hx
  exact h.wf.apart x n hNode

theorem delete_node {id : Stamp} {n : Node V} (hNode : l.nodes[seqKey id]? = some n) :
    ({ l with nodes := l.nodes.erase (seqKey id), dead := addDead l.dead id 1 n.anchor } :
      FugueList V).Canonical := by
  refine h.rewrites (h.wf.delete_node hNode).rewrites ?_ fun _ _ hNone => absurd rfl hNone
  exact h.maximal.addDead (h.fresh_node hNode) h.runsSized n.anchor

theorem deleteId (id : Stamp) : (l.deleteId id).Canonical := by
  unfold FugueList.deleteId
  split
  · exact h
  next n hNode => exact h.delete_node hNode

theorem delete (index : Nat) : (l.delete index).Canonical := by
  unfold FugueList.delete
  split
  · exact h.deleteId _
  · exact h

theorem setMovedAway (id : Stamp) (away : Bool) : (l.setMovedAway id away).Canonical := by
  refine h.rewrites (h.wf.setMovedAway id away).rewrites ?_ fun _ _ hNone => absurd rfl hNone
  unfold FugueList.setMovedAway
  split
  · exact h.maximal
  · exact h.maximal

theorem seat {id : Stamp} (hId : id.lamport ≤ u64Max) (value : V) (anchor : Anchor) :
    (l.seat id value anchor).Canonical := by
  refine h.rewrites (h.wf.seat id value anchor).rewrites ?_ ?_
  · unfold FugueList.seat
    dsimp only
    split
    next dead hTake =>
      obtain ⟨hWF, hAnchor⟩ := h.wf.runs.takeDead_spec hTake
      have hFresh : Fresh dead id 1 := by
        refine ⟨hWF, Nat.one_pos, fun x hx => ?_⟩
        rw [hAnchor, if_pos (covers_one.mp hx)]
      have hSized : Runs.Sized dead := by
        intro x hx
        rw [hAnchor] at hx
        split at hx
        · exact absurd rfl hx
        · exact h.runsSized x hx
      have hNode : (l.nodes.insert (seqKey id) ⟨value, anchor, false⟩)[seqKey id]? =
          some ⟨value, anchor, false⟩ := by
        rw [getElem?_insert_ite, if_pos rfl]
      unfold FugueList.deleteId
      dsimp only
      rw [hNode]
      exact (h.maximal.takeDead h.wf.runs hTake).addDead hFresh hSized anchor
    · exact h.maximal
  · rintro x rfl -
    exact hId

variable [SeqValue V]

theorem insertAt {id : Stamp} (hId : id.lamport ≤ u64Max) (value : V) (anchor : Anchor) :
    (l.insertAt id value anchor).Canonical := by
  unfold FugueList.insertAt
  exact iteInduction (fun _ => h.seat hId value anchor) fun _ => h

theorem insert {stamp : Stamp} (hId : stamp.lamport ≤ u64Max) (index : Nat) (value : V) :
    (l.insert index value stamp).Canonical := by
  unfold FugueList.insert
  split
  · exact h
  · exact h.insertAt hId value _

theorem reseat {id : Stamp} (hId : id.lamport ≤ u64Max) (value : V) (anchor : Anchor) :
    (l.reseat id value anchor).Canonical := by
  unfold FugueList.reseat
  split
  · exact h
  · exact h.seat hId value anchor

theorem rejoin {id : Stamp} (hId : id.lamport ≤ u64Max) (value : V) (anchor : Anchor) :
    (l.rejoin id value anchor).Canonical := by
  unfold FugueList.rejoin
  split
  · exact h
  · exact h.seat hId value _

theorem mergeNode {id : Stamp} (hId : id.lamport ≤ u64Max) (on : Node V) :
    (l.mergeNode (seqKey id) on).Canonical := by
  refine h.rewrites (h.wf.mergeNode id on).rewrites ?_ ?_
  · unfold FugueList.mergeNode
    dsimp only
    split
    next sn hNode =>
      split
      · exact h.maximal
      · split
        · exact (h.seat hId on.value on.anchor).maximal
        · exact h.maximal
    · split
      · exact h.maximal
      · exact h.maximal
  · rintro x rfl -
    exact hId

omit [SeqValue V] in
theorem bury {head : Stamp} {len : Nat} (hLen : head.lamport + len ≤ u64Max + 1) (anchor : Anchor)
    (i fuel : Nat) : (l.bury head len anchor i fuel).Canonical := by
  induction fuel generalizing l i with
  | zero => exact h
  | succ fuel ih =>
    rw [FugueList.bury]
    split
    next hi =>
      dsimp only
      split
      next => exact ih h _
      next hRun =>
        split
        next node hNode => exact ih (h.delete_node hNode) _
        next hNode =>
          have hDead := h.wf.runs.deadAnchorOf_eq_none.mpr (h.wf.runs.deadRun_eq_none.mp hRun)
          obtain ⟨hPos, hLe, hUnseen⟩ := h.wf.unseenFrom_spec (cellAt_eq_none.mpr ⟨hNode, hDead⟩)
            (show 0 < len - i by omega)
          refine ih ?_ _
          refine h.rewrites (h.wf.bury_unseen hPos hUnseen _) ?_ ?_
          · refine h.maximal.addDead ⟨h.wf.runs, hPos, fun x hx => ?_⟩ h.runsSized _
            exact (cellAt_eq_none.mp (hUnseen x hx)).2
          · intro x hx _
            obtain ⟨-, -, -, hEnd⟩ := covers_iff.mp hx
            have hStop : x.lamport < head.lamport + i + l.unseenFrom (runId head i) (len - i) := hEnd
            omega
    next => exact h

theorem merge {other : FugueList V} (hOther : other.Canonical) : (l.merge other).Canonical := by
  have hNodes : ∀ entries : List (SeqKey × Node V), (∀ e ∈ entries, e ∈ other.nodes.toList) →
      ∀ {l : FugueList V}, l.Canonical →
        (entries.foldl (fun l e => l.mergeNode e.1 e.2) l).Canonical := by
    intro entries hEntries
    induction entries with
    | nil => exact fun hl => hl
    | cons e entries ih =>
      intro l hl
      refine ih (fun e' he' => hEntries e' (List.mem_cons_of_mem e he')) ?_
      have hNode := mem_toList_iff.mp (hEntries e List.mem_cons_self)
      have hHeld : other.cellAt (seqStamp e.1) ≠ none := by
        have hCell : other.cellAt (seqStamp e.1) = some _ := cellAt_of_node hNode
        rw [hCell]
        exact Option.some_ne_none _
      exact hl.mergeNode (hOther.sized (seqStamp e.1) hHeld) e.2
  have hRuns : ∀ entries : List (SeqKey × DeadRun), (∀ e ∈ entries, e ∈ other.dead.toList) →
      ∀ {l : FugueList V}, l.Canonical →
        (entries.foldl (fun l e => l.bury (seqStamp e.1) e.2.len e.2.anchor 0 e.2.len) l).Canonical := by
    intro entries hEntries
    induction entries with
    | nil => exact fun hl => hl
    | cons e entries ih =>
      intro l hl
      refine ih (fun e' he' => hEntries e' (List.mem_cons_of_mem e he')) ?_
      have hRun := mem_toList_iff.mp (hEntries e List.mem_cons_self)
      refine hl.bury ?_ _ _ _
      have hPos := hOther.wf.runs.pos (seqStamp e.1) e.2 hRun
      have hHolds : Holds other.dead (seqStamp e.1) e.2 (runId (seqStamp e.1) (e.2.len - 1)) :=
        ⟨hRun, covers_runId.mpr (by omega)⟩
      have hLast := hOther.runsSized (runId (seqStamp e.1) (e.2.len - 1)) (by
        rw [hOther.wf.runs.deadAnchorOf_of_holds hHolds]
        exact Option.some_ne_none _)
      simp only [runId] at hLast
      omega
  unfold FugueList.merge
  exact hRuns _ (fun _ he => he) (hNodes _ (fun _ he => he) h)

end Canonical

end FugueList

end CrdtSync
