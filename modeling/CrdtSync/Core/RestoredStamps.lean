import CrdtSync.Core.HeldStamps
import CrdtSync.Core.Restored

/-!
# The stamps of a snapshot

A content read back from its snapshot holds no stamp it did not hold before, and what the
decoder notes is held.
-/

namespace CrdtSync

open Lib
open Std (ExtTreeMap)

namespace Content

variable [IdBytes]

section Within

variable {R : Set ElementId} {S : Set Stamp} {c c' : Content}

omit [IdBytes] in
theorem cellAt_unmoved {V : Type} (l : FugueList V) (id : Stamp) :
    l.unmoved.cellAt id = none ↔ l.cellAt id = none := by
  simp only [FugueList.cellAt_eq_none, FugueList.unmoved, ExtTreeMap.getElem?_map,
    Option.map_eq_none_iff]

omit [IdBytes] in
theorem within_unmoved {V : Type} {l : FugueList V} (h : l.Within S) : l.unmoved.Within S := by
  refine ⟨⟨h.wf.runs, fun id n hNode => ?_⟩, fun id hHeld => h.ids id fun hNone => hHeld ?_⟩
  · simp only [FugueList.unmoved, ExtTreeMap.getElem?_map] at hNode
    obtain ⟨old, hOld, -⟩ := Option.map_eq_some_iff.mp hNode
    exact h.wf.apart id old hOld
  · exact (cellAt_unmoved l id).mpr hNone

omit [IdBytes] in
theorem within_reread {m : LwwMap} (h : m.Within S) : m.reread.Within S := by
  refine AllEntries.map h fun _ e he => ⟨he.stamp, ?_, he.register⟩
  refine LwwMap.Within.higher_within he.create fun made hMade => ?_
  obtain ⟨v, -, hCreate⟩ := Option.bind_eq_some_iff.mp hMade
  exact LwwMap.Within.createOf_within v he.stamp made hCreate

omit [IdBytes] in
theorem within_markDisplaced (h : c.WithinBut R S) : c.markDisplaced.WithinBut R S :=
  { h with
    maps := h.maps.map fun _ _ hm => hm
    lists := h.lists.map fun _ _ hl => hl.setDisplaced _
    texts := h.texts.map fun _ _ ht => ht.setDisplaced _ }

theorem within_storedPlacements (h : c.WithinBut R S) :
    AllEntries (fun _ places => ∀ p ∈ places, p.stamp ∈ S) c.storedPlacements := by
  refine (h.placements.filter _).map fun _ places hPlaces p hp => hPlaces p ?_
  exact (List.mem_insertionSort _).mp hp

omit [IdBytes] in
theorem indexPlacements_within {rows : List (ElementId × Placement)}
    (hRows : ∀ row ∈ rows, row.2.stamp ∈ S)
    {index index' : ExtTreeMap (ElementId ×ₗ Stamp) ElementId compare}
    (h : AllEntries (fun key _ => (ofLex key).2 ∈ S) index)
    (hFold : rows.foldlM (fun index (node, p) =>
      if index.contains (placementKey p.list p.stamp) then none
      else some (index.insert (placementKey p.list p.stamp) node)) index = some index') :
    AllEntries (fun key _ => (ofLex key).2 ∈ S) index' := by
  induction rows generalizing index with
  | nil =>
    obtain rfl := Option.some.inj hFold
    exact h
  | cons row rows ih =>
    rw [List.foldlM_cons, Option.bind_eq_bind, Option.bind_eq_some_iff] at hFold
    obtain ⟨next, hNext, hRest⟩ := hFold
    obtain ⟨node, p⟩ := row
    dsimp only at hNext
    split at hNext
    · cases hNext
    · obtain rfl := Option.some.inj hNext
      refine ih (fun row hRow => hRows row (List.mem_cons_of_mem _ hRow)) ?_ hRest
      exact h.insert (hRows (node, p) List.mem_cons_self)

omit [IdBytes] in
theorem stamp_of_mem_listedNodes (h : c.WithinBut R S) {list : ElementId} {row : ElementId × Placement}
    (hRow : row ∈ c.listedNodes list) : row.2.stamp ∈ S := by
  unfold listedNodes at hRow
  split at hRow
  · cases hRow
  next l hList =>
    obtain ⟨⟨key, n⟩, hNode, hShown⟩ := List.mem_filterMap.mp hRow
    have hCell : l.nodes[seqKey (seqStamp key)]? = some n := mem_toList_iff.mp hNode
    have hIn : seqStamp key ∈ S := by
      apply (h.lists list l hList).ids
      rw [FugueList.cellAt_of_node hCell]
      exact Option.some_ne_none _
    dsimp only at hShown
    split at hShown
    · obtain rfl := Option.some.inj hShown
      exact hIn
    · obtain rfl := Option.some.inj hShown
      exact hIn
    · cases hShown

omit [IdBytes] in
theorem within_placeBirth (h : c.WithinBut R S) {row : ElementId × Placement} (hRow : row.2.stamp ∈ S) :
    (c.placeBirth row).WithinBut R S := by
  unfold placeBirth
  dsimp only
  split
  · exact h
  · have hPushed := h.pushPlacement row.1 row.2.list hRow
    exact { hPushed with index := h.index.insert hRow }

omit [IdBytes] in
theorem within_reconstructBirths (h : c.WithinBut R S) : c.reconstructBirths.WithinBut R S := by
  unfold reconstructBirths
  dsimp only
  have hRows : ∀ row ∈ (c.childrenLists.flatMap c.listedNodes).filter
      (fun row => !c.placements.contains row.1), row.2.stamp ∈ S := by
    intro row hRow
    obtain ⟨list, -, hListed⟩ := List.mem_flatMap.mp (List.mem_of_mem_filter hRow)
    exact stamp_of_mem_listedNodes h hListed
  generalize (c.childrenLists.flatMap c.listedNodes).filter
    (fun row => !c.placements.contains row.1) = rows at hRows
  induction rows generalizing c with
  | nil => exact h
  | cons row rows ih =>
    exact ih (within_placeBirth h (hRows row List.mem_cons_self))
      fun row hRow => hRows row (List.mem_cons_of_mem _ hRow)

omit [IdBytes] in
theorem within_reseedBases (h : c.WithinBut R S) : c.reseedBases.WithinBut R S := by
  refine { h with moves := ?_ }
  have hFold : ∀ (rows : List (ElementId × ElementId)) (m : TreeMoves),
      (rows.foldl (fun m row => m.setBase row.1 row.2) m).log = m.log := by
    intro rows
    induction rows with
    | nil => exact fun m => rfl
    | cons row rows ih => exact fun m => (ih _).trans (m.log_setBase row.1 row.2)
  intro op hOp
  have hKept : op ∈ c.moves.log := hFold c.namedBases c.moves ▸ hOp
  exact h.moves op hKept

omit [IdBytes] in
theorem within_replayed {log : List LogOp} (hLog : ∀ op ∈ log, op.stamp ∈ S) {m : TreeMoves}
    (hm : ∀ op ∈ m.log, op.stamp ∈ S) :
    ∀ op ∈ (log.foldl (fun m op => m.apply op.stamp op.child op.parent) m).log, op.stamp ∈ S := by
  induction log generalizing m with
  | nil => exact hm
  | cons op log ih =>
    refine ih (fun op hOp => hLog op (List.mem_cons_of_mem _ hOp)) fun moved hMoved => ?_
    obtain hNew | ⟨old, hOld, hSame⟩ := TreeMoves.stamp_of_mem_apply hMoved
    · rw [hNew]
      exact hLog op List.mem_cons_self
    · rw [hSame]
      exact hm old hOld

omit [IdBytes] in
theorem within_restoreMoves (h : c.WithinBut R S) {log : List LogOp} (hLog : ∀ op ∈ log, op.stamp ∈ S)
    (hRestored : c.restoreMoves log = some c') : c'.WithinBut R S := by
  have hSeeded := within_reseedBases (within_reconstructBirths h)
  have hUnplaced : c.reconstructBirths.reseedBases.restoreUnplaced.WithinBut R S := { hSeeded with }
  unfold restoreMoves at hRestored
  dsimp only at hRestored
  generalize c.reconstructBirths.reseedBases.restoreUnplaced = c at hRestored hUnplaced
  split at hRestored
  · obtain rfl := Option.some.inj hRestored
    apply WithinBut.refoldMoves
    exact { hUnplaced with moves := within_replayed hLog hUnplaced.moves }
  · cases hRestored

/-- Nothing is held after a reload that was not held before it. -/
theorem within_restored (h : c.WithinBut R S) (hRestored : c.restored = some c') : c'.WithinBut R S := by
  unfold restored at hRestored
  split at hRestored
  · cases hRestored
  split at hRestored
  · cases hRestored
  obtain ⟨index, hIndex, hRead⟩ := Option.bind_eq_some_iff.mp hRestored
  have hStored := within_storedPlacements h
  refine within_restoreMoves (within_markDisplaced ?_) h.moves hRead
  exact { h with
    maps := h.maps.map fun _ _ hm => within_reread hm
    lists := h.lists.map fun _ _ hl => within_unmoved hl
    moves := fun _ hOp => absurd hOp List.not_mem_nil
    placements := hStored
    index := by
      refine indexPlacements_within ?_ AllEntries.empty hIndex
      intro row hRow
      obtain ⟨⟨node, places⟩, hEntry, hPlaced⟩ := List.mem_flatMap.mp hRow
      obtain ⟨p, hp, rfl⟩ := List.mem_map.mp hPlaced
      exact hStored node places (mem_toList_iff.mp hEntry) p hp }

/-! ### What the decoder notes -/

omit [IdBytes] in
theorem within_seqReaches {V : Type} {l : FugueList V} (h : l.Within S) : ∀ stamp ∈ l.reaches, stamp ∈ S := by
  intro stamp hStamp
  obtain hNode | hRun := List.mem_append.mp hStamp
  · obtain ⟨⟨key, n⟩, hEntry, rfl⟩ := List.mem_map.mp hNode
    have hCell : l.nodes[seqKey (seqStamp key)]? = some n := mem_toList_iff.mp hEntry
    apply h.ids
    rw [FugueList.cellAt_of_node hCell]
    exact Option.some_ne_none _
  · obtain ⟨⟨key, run⟩, hEntry, rfl⟩ := List.mem_map.mp hRun
    have hDead : l.dead[seqKey (seqStamp key)]? = some run := mem_toList_iff.mp hEntry
    have hPos := h.wf.runs.pos _ run hDead
    have hHolds : Runs.Holds l.dead (seqStamp key) run (runId (seqStamp key) (run.len - 1)) :=
      ⟨hDead, covers_runId.mpr (Nat.sub_lt hPos Nat.one_pos)⟩
    refine h.ids _ fun hNone => ?_
    have hVacant := (FugueList.cellAt_eq_none.mp hNone).2
    exact h.wf.runs.deadAnchorOf_eq_none.mp hVacant _ _ hHolds

omit [IdBytes] in
theorem within_slotReaches {m : LwwMap} (h : m.Within S) : ∀ stamp ∈ m.reaches, stamp ∈ S := by
  intro stamp hStamp
  obtain ⟨⟨key, e⟩, hEntry, hNoted⟩ := List.mem_flatMap.mp hStamp
  have he := h key e (mem_toList_iff.mp hEntry)
  dsimp only at hNoted
  obtain hSlot | hRegister := List.mem_append.mp hNoted
  · obtain rfl | hCreate := List.mem_cons.mp hSlot
    · exact he.stamp
    · obtain ⟨made, hMade, rfl⟩ := Option.map_eq_some_iff.mp (Option.mem_toList.mp hCreate)
      exact he.create made hMade
  · split at hRegister
    next r hValue =>
      rw [List.mem_singleton.mp hRegister]
      exact he.register r hValue
    next => cases hRegister

omit [IdBytes] in
/-- What the decoder notes is held. -/
theorem within_observedStamps (h : c.WithinBut R S) : ∀ stamp ∈ c.observedStamps, stamp ∈ S := by
  intro stamp hStamp
  simp only [observedStamps, List.mem_append, List.mem_flatMap, List.mem_map, List.mem_filterMap] at hStamp
  obtain ((((⟨⟨id, l⟩, hEntry, hIn⟩ | ⟨⟨id, t⟩, hEntry, hIn⟩) | ⟨⟨id, m⟩, hEntry, hIn⟩) | ⟨op, hOp, rfl⟩) |
    ⟨⟨node, places⟩, hEntry, hIn⟩) | ⟨⟨id, e⟩, hEntry, hIn⟩ := hStamp
  · exact within_seqReaches (h.lists id l (mem_toList_iff.mp hEntry)) stamp hIn
  · exact within_seqReaches (h.texts id t (mem_toList_iff.mp hEntry)) stamp hIn
  · exact within_slotReaches (h.maps id m (mem_toList_iff.mp hEntry)) stamp hIn
  · exact h.moves op hOp
  · obtain ⟨p, hp, rfl⟩ := hIn
    exact h.placements node places (mem_toList_iff.mp hEntry) p hp
  · have hPayload := (h.ranged id e (mem_toList_iff.mp hEntry)).2
    dsimp only at hIn
    split at hIn
    next hScalar =>
      rw [hScalar] at hPayload
      rw [← Option.some.inj hIn]
      exact hPayload
    next => cases hIn

end Within

end Content

end CrdtSync
