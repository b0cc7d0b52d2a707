import CrdtSync.Core.FugueCells

/-!
# Merging two sequences

A merge folds the peer's nodes in one by one and then buries its runs, each
stretch of unseen ids in one record. On the cells it is the plain merge.
-/

namespace CrdtSync

open Lib Runs SeqValue
open Std (ExtTreeMap)

namespace FugueList

variable {V : Type} {l : FugueList V}

/-- `l'` is `l` with the cells of the ids in `on` rewritten by `f`. -/
structure Rewrites (l l' : FugueList V) (on : Stamp → Prop)
    (f : Stamp → Option (Cell V) → Option (Cell V)) : Prop where
  wf : l'.WF
  inside : ∀ x, on x → l'.cellAt x = f x (l.cellAt x)
  outside : ∀ x, ¬on x → l'.cellAt x = l.cellAt x

theorem Updates.rewrites {l' : FugueList V} {id : Stamp} {f : Option (Cell V) → Option (Cell V)}
    (h : Updates l l' id f) : Rewrites l l' (· = id) fun _ => f where
  wf := h.wf
  inside x hx := by rw [h.cell x, if_pos hx, hx]
  outside x hx := by rw [h.cell x, if_neg hx]

theorem rewrites_foldl {β : Type} {s : FugueList V → β → FugueList V} {on : β → Stamp → Prop}
    {f : β → Stamp → Option (Cell V) → Option (Cell V)} {entries : List β}
    (hApart : entries.Pairwise fun a b => ∀ x, on a x → ¬on b x)
    (hStep : ∀ b ∈ entries, ∀ l : FugueList V, l.WF → Rewrites l (s l b) (on b) (f b))
    (hl : l.WF) :
    (entries.foldl s l).WF ∧
      (∀ b ∈ entries, ∀ x, on b x → (entries.foldl s l).cellAt x = f b x (l.cellAt x)) ∧
      ∀ x, (∀ b ∈ entries, ¬on b x) → (entries.foldl s l).cellAt x = l.cellAt x := by
  induction entries generalizing l with
  | nil => exact ⟨hl, by simp, fun _ _ => rfl⟩
  | cons a entries ih =>
    obtain ⟨hHead, hTail⟩ := List.pairwise_cons.mp hApart
    have hFirst := hStep a (by simp) l hl
    obtain ⟨hWF, hIn, hOut⟩ := ih hTail (fun b hb => hStep b (List.mem_cons_of_mem a hb)) hFirst.wf
    refine ⟨hWF, ?_, ?_⟩
    · intro b hb x hx
      rw [List.foldl_cons]
      rcases List.mem_cons.mp hb with rfl | hb
      · rw [hOut x fun c hc => hHead c hc x hx, hFirst.inside x hx]
      · rw [hIn b hb x hx, hFirst.outside x fun hax => hHead b hb x hax hx]
    · intro x hx
      rw [List.foldl_cons, hOut x fun b hb => hx b (List.mem_cons_of_mem a hb),
        hFirst.outside x (hx a (by simp))]

/-- Burying a stretch of ids never seen records the run's own chain. -/
theorem WF.bury_unseen (h : l.WF) {head : Stamp} {len : Nat} (hPos : 0 < len)
    (hVacant : ∀ x, covers head len x = true → l.cellAt x = none) (anchor : Anchor) :
    Rewrites l { l with dead := addDead l.dead head len anchor } (fun x => covers head len x = true)
      fun x _ => some ⟨chainAnchor head anchor x, none⟩ := by
  have hFresh : Fresh l.dead head len :=
    ⟨h.runs, hPos, fun x hx => (cellAt_eq_none.mp (hVacant x hx)).2⟩
  obtain ⟨hWF, hAnchor⟩ := addDead_spec hFresh anchor
  refine ⟨⟨hWF, fun x n hx => ?_⟩, fun x hx => ?_, fun x hx => ?_⟩
  · by_cases hCovers : covers head len x = true
    · have hNone := (cellAt_eq_none.mp (hVacant x hCovers)).1
      rw [hNone] at hx
      cases hx
    · rw [hAnchor x, overlay, if_neg hCovers]
      exact h.apart x n hx
  · have hNone := (cellAt_eq_none.mp (hVacant x hx)).1
    simp [cellAt, hNone, hAnchor x, overlay, hx]
  · simp [cellAt, hAnchor x, overlay, hx]

section Unseen

variable {W : Type} {m : ExtTreeMap SeqKey W compare} {id : Stamp}

/-- The distance from `id` to the next key of its client and offset. -/
def distance (id : Stamp) (key : SeqKey) : Option Nat :=
  if key.client = id.client ∧ key.offset = id.offset then some (key.lamport - id.lamport) else none

theorem distance_eq_some {key : SeqKey} {d : Nat} (hLe : seqKey id ≤ key)
    (h : distance id key = some d) : key = seqKey (runId id d) := by
  unfold distance at h
  split at h
  · rename_i hGroup
    obtain rfl := Option.some.inj h
    rw [SeqKey.le_iff] at hLe
    cases key
    simp only [seqKey, runId, SeqKey.mk.injEq] at *
    refine ⟨hGroup.1, hGroup.2, ?_⟩
    rw [hGroup.1, hGroup.2] at hLe
    simp only [lt_irrefl, true_and, false_or] at hLe
    omega
  · cases h

/-- A key `j` places after `id` bounds the distance to the next one. -/
theorem firstAtLeast_distance_le {j : Nat} {w : W} (h : m[seqKey (runId id j)]? = some w) :
    ∃ d ≤ j, (firstAtLeast m (seqKey id)).bind (fun e => distance id e.1) = some d := by
  have hLe : seqKey id ≤ seqKey (runId id j) := by
    rw [SeqKey.le_iff]
    exact .inr ⟨rfl, .inr ⟨rfl, Nat.le_add_right _ _⟩⟩
  cases hFirst : firstAtLeast m (seqKey id) with
  | none => exact absurd (firstAtLeast_eq_none.mp hFirst _ _ h) (not_lt.mpr hLe)
  | some e =>
    obtain ⟨-, hFrom, hMin⟩ := firstAtLeast_eq_some (show _ = some (e.1, e.2) from hFirst)
    have hTo := hMin _ _ h hLe
    rw [SeqKey.le_iff] at hFrom hTo
    simp only [seqKey, runId] at hFrom hTo
    have hClient : e.1.client = id.client := by
      apply le_antisymm
      · rcases hTo with hTo | hTo
        · exact hTo.le
        · exact hTo.1.le
      · rcases hFrom with hFrom | hFrom
        · exact hFrom.le
        · exact hFrom.1.le
    simp only [hClient, lt_irrefl, true_and, false_or] at hFrom hTo
    have hOffset : e.1.offset = id.offset := by omega
    refine ⟨e.1.lamport - id.lamport, by omega, ?_⟩
    simp [distance, hClient, hOffset]

theorem firstAtLeast_distance_mem {d : Nat}
    (h : (firstAtLeast m (seqKey id)).bind (fun e => distance id e.1) = some d) :
    ∃ w, m[seqKey (runId id d)]? = some w := by
  obtain ⟨e, hFirst, hDistance⟩ := Option.bind_eq_some_iff.mp h
  obtain ⟨hEntry, hLe, -⟩ := firstAtLeast_eq_some (show _ = some (e.1, e.2) from hFirst)
  exact ⟨e.2, distance_eq_some hLe hDistance ▸ hEntry⟩

end Unseen

theorem unseenFrom_eq (l : FugueList V) (id : Stamp) (most : Nat) :
    l.unseenFrom id most =
      min (min (((firstAtLeast l.nodes (seqKey id)).bind fun e => distance id e.1).getD most)
        (((firstAtLeast l.dead (seqKey id)).bind fun e => distance id e.1).getD most)) most := rfl

theorem WF.unseenFrom_spec (h : l.WF) {id : Stamp} {most : Nat} (hVacant : l.cellAt id = none)
    (hMost : 0 < most) :
    0 < l.unseenFrom id most ∧ l.unseenFrom id most ≤ most ∧
      ∀ x, covers id (l.unseenFrom id most) x = true → l.cellAt x = none := by
  obtain ⟨hNode, hDead⟩ := cellAt_eq_none.mp hVacant
  have hNoRun : l.dead[seqKey id]? = none := by
    cases hRun : l.dead[seqKey id]? with
    | none => rfl
    | some run =>
      exact absurd ⟨hRun, covers_head (h.runs.pos id run hRun)⟩
        (h.runs.deadAnchorOf_eq_none.mp hDead id run)
  have hPos : ∀ {W : Type} (m : ExtTreeMap SeqKey W compare), m[seqKey id]? = none →
      0 < ((firstAtLeast m (seqKey id)).bind fun e => distance id e.1).getD most := by
    intro W m hNone
    cases hd : (firstAtLeast m (seqKey id)).bind fun e => distance id e.1 with
    | none => exact hMost
    | some d =>
      obtain ⟨w, hw⟩ := firstAtLeast_distance_mem hd
      rcases Nat.eq_zero_or_pos d with rfl | hdPos
      · rw [runId_zero, hNone] at hw
        cases hw
      · exact hdPos
  have hNodes := hPos l.nodes hNode
  have hRuns := hPos l.dead hNoRun
  rw [unseenFrom_eq]
  refine ⟨by omega, by omega, fun x hx => ?_⟩
  have hxId := eq_runId_of_covers hx
  obtain ⟨hClient, hOffset, hLe, hLt⟩ := covers_iff.mp hx
  rw [cellAt_eq_none, h.runs.deadAnchorOf_eq_none]
  constructor
  · cases hn : l.nodes[seqKey x]? with
    | none => rfl
    | some n =>
      rw [hxId] at hn
      obtain ⟨d, hd, hNext⟩ := firstAtLeast_distance_le hn
      rw [hNext, Option.getD_some] at hLt
      omega
  · rintro head run ⟨hRun, hCovers⟩
    obtain ⟨hClient', hOffset', hLe', hLt'⟩ := covers_iff.mp hCovers
    by_cases hBefore : head.lamport ≤ id.lamport
    · refine h.runs.deadAnchorOf_eq_none.mp hDead head run ⟨hRun, covers_iff.mpr ?_⟩
      exact ⟨hClient'.trans hClient.symm, hOffset'.trans hOffset.symm, hBefore, by omega⟩
    · have hHead : head = runId id (head.lamport - id.lamport) := by
        cases head
        simp only [runId, Stamp.mk.injEq] at *
        exact ⟨by omega, hClient'.trans hClient.symm, hOffset'.trans hOffset.symm⟩
      rw [hHead] at hRun
      obtain ⟨d, hd, hNext⟩ := firstAtLeast_distance_le hRun
      rw [hNext, Option.getD_some] at hLt
      omega

theorem Rewrites.congr {l' : FugueList V} {on p : Stamp → Prop}
    {f g : Stamp → Option (Cell V) → Option (Cell V)} (h : Rewrites l l' on f)
    (hOn : ∀ x, p x ↔ on x) (hfg : ∀ x, on x → f x (l.cellAt x) = g x (l.cellAt x)) :
    Rewrites l l' p g where
  wf := h.wf
  inside x hx := by rw [h.inside x ((hOn x).mp hx), hfg x ((hOn x).mp hx)]
  outside x hx := h.outside x fun hIn => hx ((hOn x).mpr hIn)

/-- The first `n` ids of a stretch and the rest of it. -/
theorem Rewrites.join {l₁ l₂ : FugueList V} {head : Stamp} {m n : Nat}
    {f : Stamp → Option (Cell V) → Option (Cell V)}
    (h₁ : Rewrites l l₁ (fun x => covers head m x = true) f)
    (h₂ : Rewrites l₁ l₂ (fun x => covers (runId head m) n x = true) f) :
    Rewrites l l₂ (fun x => covers head (m + n) x = true) f where
  wf := h₂.wf
  inside x hx := by
    by_cases hFirst : covers head m x = true
    · rw [h₂.outside x (not_covers_both hFirst), h₁.inside x hFirst]
    · have hSecond := (covers_add.mp hx).resolve_left hFirst
      rw [h₂.inside x hSecond, h₁.outside x hFirst]
  outside x hx := by
    rw [h₂.outside x fun hIn => hx (covers_add.mpr (.inr hIn)),
      h₁.outside x fun hIn => hx (covers_add.mpr (.inl hIn))]

/-- A stretch whose ids are all deleted already. -/
theorem WF.rewrites_dead [SeqValue V] (h : l.WF) {head id : Stamp} {run : DeadRun} (n : Nat)
    (chain : Stamp → Anchor) (hRun : deadRun l.dead id = some (head, run))
    (hn : n ≤ run.len - (id.lamport - head.lamport)) :
    Rewrites l l (fun x => covers id n x = true) fun x => Cell.merge ⟨chain x, none⟩ := by
  refine ⟨h, fun x hx => ?_, fun _ _ => rfl⟩
  obtain ⟨hEntry, hCovers⟩ := h.runs.deadRun_eq_some.mp hRun
  obtain ⟨hClient, hOffset, hLe, hLt⟩ := covers_iff.mp hCovers
  obtain ⟨hClient', hOffset', hLe', hLt'⟩ := covers_iff.mp hx
  have hHolds : Holds l.dead head run x :=
    ⟨hEntry, covers_iff.mpr ⟨hClient.trans hClient', hOffset.trans hOffset', by omega, by omega⟩⟩
  have hDead := h.runs.deadAnchorOf_of_holds hHolds
  have hNode : l.nodes[seqKey x]? = none := by
    cases hn : l.nodes[seqKey x]? with
    | none => rfl
    | some n =>
      rw [h.apart x n hn] at hDead
      cases hDead
  rw [cellAt_of_no_node hNode, hDead]
  rfl

variable [SeqValue V]

theorem WF.bury (h : l.WF) (head : Stamp) (len : Nat) (anchor : Anchor) (i fuel : Nat)
    (hFuel : len - i ≤ fuel) :
    Rewrites l (l.bury head len anchor i fuel)
      (fun x => covers (runId head i) (len - i) x = true)
      fun x => Cell.merge ⟨chainAnchor head anchor x, none⟩ := by
  have hDone : ∀ {l : FugueList V} (start : Stamp) (f : Stamp → Option (Cell V) → Option (Cell V)),
      l.WF → Rewrites l l (fun x => covers start 0 x = true) f := by
    intro l start f hl
    refine ⟨hl, fun x hx => ?_, fun _ _ => rfl⟩
    rw [covers_iff] at hx
    omega
  induction fuel generalizing l i with
  | zero =>
    rw [show len - i = 0 by omega]
    exact hDone _ _ h
  | succ fuel ih =>
    rw [FugueList.bury]
    by_cases hi : i < len
    swap
    · rw [if_neg hi, show len - i = 0 by omega]
      exact hDone _ _ h
    rw [if_pos hi]
    dsimp only
    cases hRun : deadRun l.dead (runId head i) with
    | some entry =>
      obtain ⟨head', run⟩ := entry
      dsimp only
      obtain ⟨-, -, hLe, hLt⟩ := covers_iff.mp (h.runs.deadRun_eq_some.mp hRun).2
      obtain ⟨skip, hSkip⟩ : ∃ skip, skip = run.len - ((runId head i).lamport - head'.lamport) :=
        ⟨_, rfl⟩
      have hPos : 0 < skip := by omega
      rw [← hSkip]
      have hRest := ih h (i + skip) (by omega)
      by_cases hOver : i + skip ≤ len
      · have hFirst := h.rewrites_dead skip (chainAnchor head anchor) hRun hSkip.le
        rw [show len - i = skip + (len - (i + skip)) by omega]
        exact hFirst.join (by rwa [runId_add])
      · have hFirst := h.rewrites_dead (len - i) (chainAnchor head anchor) hRun
          (by omega)
        rw [show len - (i + skip) = 0 by omega] at hRest
        have hNone : ∀ x, ¬covers (runId head (i + skip)) 0 x = true := by
          intro x
          rw [covers_iff]
          omega
        refine ⟨hRest.wf, fun x hx => ?_, fun x _ => hRest.outside x (hNone x)⟩
        rw [hRest.outside x (hNone x)]
        exact hFirst.inside x hx
    | none =>
      have hVacant := h.runs.deadRun_eq_none.mp hRun
      have hNoDead := h.runs.deadAnchorOf_eq_none.mpr hVacant
      dsimp only
      cases hNode : l.nodes[seqKey (runId head i)]? with
      | some node =>
        dsimp only
        have hDelete := (h.delete_node hNode).rewrites.congr (p := fun x =>
          covers (runId head i) 1 x = true)
          (g := fun x => Cell.merge ⟨chainAnchor head anchor x, none⟩) (fun x => covers_one) (by
            rintro x rfl
            rw [cellAt_of_node hNode]
            rfl)
        rw [show len - i = 1 + (len - (i + 1)) by omega]
        refine hDelete.join ?_
        rw [runId_add]
        exact ih hDelete.wf (i + 1) (by omega)
      | none =>
        dsimp only
        have hCell : l.cellAt (runId head i) = none := cellAt_eq_none.mpr ⟨hNode, hNoDead⟩
        obtain ⟨hPos, hLe, hUnseen⟩ := h.unseenFrom_spec hCell (show 0 < len - i by omega)
        obtain ⟨unseen, hEq⟩ : ∃ unseen, unseen = l.unseenFrom (runId head i) (len - i) := ⟨_, rfl⟩
        rw [← hEq] at hPos hLe hUnseen ⊢
        have hFirst := (h.bury_unseen hPos hUnseen
          (if i = 0 then anchor else ⟨some (runId head (i - 1)), .right⟩)).congr
          (p := fun x => covers (runId head i) unseen x = true)
          (g := fun x => Cell.merge ⟨chainAnchor head anchor x, none⟩) (fun _ => Iff.rfl) (by
            intro x hx
            rw [hUnseen x hx]
            rcases Nat.eq_zero_or_pos i with rfl | hiPos
            · rfl
            · rw [if_neg hiPos.ne', chainAnchor_add hiPos hx]
              rfl)
        rw [show len - i = unseen + (len - (i + unseen)) by omega]
        refine hFirst.join ?_
        rw [runId_add]
        exact ih hFirst.wf (i + unseen) (by omega)

theorem WF.mergeNode (h : l.WF) (id : Stamp) (on : Node V) :
    Updates l (l.mergeNode (seqKey id) on) id
      (Cell.merge ⟨on.anchor, some ⟨on.value, on.movedAway⟩⟩) := by
  unfold FugueList.mergeNode
  cases hNode : l.nodes[seqKey id]? with
  | some sn =>
    have hCell := cellAt_of_node hNode
    dsimp only
    split
    · rename_i hSame
      refine (h.insert_node (h.apart id sn hNode) _).congr ?_
      rw [hCell, Cell.merge, if_pos hSame]
    · rename_i hDiffer
      split
      · rename_i hLess
        refine (h.seat id on.value on.anchor).congr ?_
        rw [hCell, Cell.merge, if_neg hDiffer, if_pos hLess]
      · rename_i hNotLess
        refine updates_self h ?_
        rw [hCell, Cell.merge, if_neg hDiffer, if_neg hNotLess]
  | none =>
    have hCell := cellAt_of_no_node hNode
    cases hDead : deadAnchorOf l.dead id with
    | some taken =>
      simp only [seqStamp_seqKey, hDead]
      refine updates_self h ?_
      rw [hCell, hDead]
      rfl
    | none =>
      simp only [seqStamp_seqKey, hDead]
      refine (h.insert_node hDead on).congr ?_
      rw [hCell, hDead]
      rfl

theorem WF.merge (h : l.WF) {other : FugueList V} (hOther : other.WF) :
    (l.merge other).WF ∧ ∀ x, (l.merge other).cellAt x =
      match other.cellAt x with
      | none => l.cellAt x
      | some c => Cell.merge c (l.cellAt x) := by
  have hKeys : other.nodes.toList.Pairwise fun a b => ∀ x, x = seqStamp a.1 → ¬x = seqStamp b.1 := by
    refine (pairwise_keys_toList other.nodes).imp ?_
    rintro a b hab x rfl hEq
    exact hab.ne (congrArg seqKey hEq)
  have hRuns : other.dead.toList.Pairwise fun a b => ∀ x,
      covers (seqStamp a.1) a.2.len x = true → ¬covers (seqStamp b.1) b.2.len x = true := by
    refine (pairwise_keys_toList other.dead).imp_of_mem ?_
    intro a b ha hb hab x hax hbx
    have hSame := hOther.runs.apart (seqStamp a.1) a.2 (seqStamp b.1) b.2 x
      ⟨mem_toList_iff.mp ha, hax⟩ ⟨mem_toList_iff.mp hb, hbx⟩
    exact hab.ne (congrArg seqKey hSame)
  obtain ⟨hWF₁, hIn₁, hOut₁⟩ := rewrites_foldl hKeys
    (s := fun l e => l.mergeNode e.1 e.2)
    (f := fun e _ => Cell.merge ⟨e.2.anchor, some ⟨e.2.value, e.2.movedAway⟩⟩)
    (fun e _ l hl => (hl.mergeNode (seqStamp e.1) e.2).rewrites) h
  obtain ⟨hWF₂, hIn₂, hOut₂⟩ := rewrites_foldl hRuns
    (s := fun l e => l.bury (seqStamp e.1) e.2.len e.2.anchor 0 e.2.len)
    (f := fun e x => Cell.merge ⟨chainAnchor (seqStamp e.1) e.2.anchor x, none⟩)
    (fun e _ l hl => hl.bury (seqStamp e.1) e.2.len e.2.anchor 0 e.2.len (by omega))
    hWF₁
  refine ⟨hWF₂, fun x => ?_⟩
  unfold FugueList.merge
  cases hNode : other.nodes[seqKey x]? with
  | some on =>
    rw [cellAt_of_node hNode]
    have hMem : (seqKey x, on) ∈ other.nodes.toList := mem_toList_iff.mpr hNode
    rw [hOut₂ x fun e he hCovers => hOther.runs.deadAnchorOf_eq_none.mp
      (hOther.apart x on hNode) (seqStamp e.1) e.2 ⟨mem_toList_iff.mp he, hCovers⟩]
    exact hIn₁ _ hMem x rfl
  | none =>
    rw [cellAt_of_no_node hNode]
    have hFirst := hOut₁ x fun e he hEq => by
      rw [hEq] at hNode
      exact absurd ((mem_toList_iff.mp he).symm.trans hNode) (by simp)
    cases hDead : deadAnchorOf other.dead x with
    | none =>
      rw [hOut₂ x fun e he hCovers => hOther.runs.deadAnchorOf_eq_none.mp hDead
        (seqStamp e.1) e.2 ⟨mem_toList_iff.mp he, hCovers⟩]
      exact hFirst
    | some anchor =>
      obtain ⟨head, run, ⟨hRun, hCovers⟩, rfl⟩ := hOther.runs.deadAnchorOf_eq_some.mp hDead
      have hMem : (seqKey head, run) ∈ other.dead.toList := mem_toList_iff.mpr hRun
      rw [hIn₂ _ hMem x hCovers, hFirst]
      rfl

end FugueList

end CrdtSync
