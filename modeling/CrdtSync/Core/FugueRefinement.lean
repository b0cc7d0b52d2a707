import CrdtSync.Core.FugueWalk

/-!
# The sequence refines the plain sequence

Every list the public operations build holds the cells, and shows the order, of
the plain list the same operations build.
-/

namespace CrdtSync

open Lib Runs

variable {V : Type} {l : FugueList V} {cells : PlainList V}

section Reads

theorem Refines.live_iff (h : Refines l cells) {x : Stamp} :
    PlainList.live cells x = !l.hidden x := by
  unfold PlainList.live FugueList.hidden
  rw [h.cell, FugueList.cellAt]
  cases l.nodes[seqKey x]? with
  | some n => rfl
  | none => cases deadAnchorOf l.dead x <;> rfl

/-- No id of a deleted stretch is live. -/
theorem Refines.not_live_of_dead (h : Refines l cells) {first : Stamp} {len : Nat}
    (hs : l.IsRecord (.dead first len)) {x : Stamp} (hx : x ∈ (Span.dead first len).ids) :
    PlainList.live cells x = false := by
  obtain ⟨head, run, i, j, hPiece, rfl, rfl⟩ := h.wf.isRecord_dead.mp hs
  obtain ⟨k, hk, rfl⟩ := List.mem_map.mp hx
  rw [List.mem_range] at hk
  rw [runId_add] at hx ⊢
  rw [h.live_iff, FugueList.hidden]
  cases hNode : l.nodes[seqKey (runId head (i + k))]? with
  | none => rfl
  | some n => exact absurd (hPiece.holds h.wf (by omega)) (h.wf.not_holds_node hNode)

theorem Refines.liveOrder_eq (h : Refines l cells) :
    l.liveOrder = PlainList.liveOrder cells := by
  obtain ⟨hOrder, hRecords⟩ := h.order_eq
  unfold FugueList.liveOrder PlainList.liveOrder
  rw [hOrder]
  generalize l.treeOrder = spans at hRecords
  induction spans with
  | nil => rfl
  | cons s spans ih =>
    obtain ⟨hs, hRest⟩ := List.forall_mem_cons.mp hRecords
    rw [List.flatMap_cons, List.filter_append, ← ih hRest]
    cases s with
    | node x =>
      have hLive := h.live_iff (x := x)
      cases hHidden : l.hidden x <;> simp [Span.ids, hLive, hHidden]
    | dead first len =>
      have hNone : ((Span.dead first len).ids).filter (PlainList.live cells) = [] :=
        List.filter_eq_nil_iff.mpr fun x hx => by simp [h.not_live_of_dead hs hx]
      rw [hNone]
      rfl

theorem Refines.nodeValue_eq (h : Refines l cells) (x : Stamp) :
    l.nodeValue x = (cells[x]?.bind fun c => c.item).map (·.value) := by
  rw [h.cell, FugueList.nodeValue, FugueList.cellAt]
  cases l.nodes[seqKey x]? with
  | some n => rfl
  | none => cases deadAnchorOf l.dead x <;> rfl

theorem Refines.anchorOf_eq (h : Refines l cells) (x : Stamp) :
    l.anchorOf x = cells[x]?.map (·.anchor) := by
  rw [h.cell, FugueList.anchorOf_eq]

theorem Refines.contains_eq (h : Refines l cells) (x : Stamp) :
    l.contains x = cells.contains x := by
  have hCell : cells.contains x = (l.cellAt x).isSome := by
    rw [← h.cell, Std.ExtTreeMap.isSome_getElem?_eq_contains]
  rw [hCell, FugueList.contains, FugueList.cellAt, ← Std.ExtTreeMap.isSome_getElem?_eq_contains]
  cases hNode : l.nodes[seqKey x]? with
  | some n => rfl
  | none =>
    have hDead : (deadRun l.dead x).isSome = (deadAnchorOf l.dead x).isSome := by
      unfold deadAnchorOf
      cases deadRun l.dead x with
      | none => rfl
      | some e => dsimp only; split <;> rfl
    simp [hDead]

end Reads

section Place

/-- The ids around the gap before the `index`-th id counted. -/
def PlainList.gapWhere (counted : Stamp → Bool) :
    List Stamp → Nat → Option Stamp → Option Stamp × Option Stamp
  | [], _, left => (left, none)
  | id :: _, 0, left => (left, some id)
  | id :: order, index + 1, _ =>
    gapWhere counted order (if counted id then index else index + 1) (some id)

theorem gap_eq_gapWhere (order : List Stamp) (index : Nat) (left : Option Stamp) :
    PlainList.gap cells order index left =
      PlainList.gapWhere (PlainList.live cells) order index left := by
  induction order generalizing index left with
  | nil => rfl
  | cons id order ih =>
    cases index with
    | zero => rfl
    | succ index => exact ih _ _

/-- A stretch of ids not counted moves the gap's left edge and nothing else. -/
theorem gapWhere_skip {counted : Stamp → Bool} {ids : List Stamp}
    (hNone : ∀ x ∈ ids, counted x = false) (order : List Stamp) (index : Nat) (left : Option Stamp) :
    PlainList.gapWhere counted (ids ++ order) (index + 1) left =
      PlainList.gapWhere counted order (index + 1) (if ids = [] then left else ids.getLast?) := by
  induction ids generalizing left with
  | nil => rfl
  | cons x ids ih =>
    obtain ⟨hx, hRest⟩ := List.forall_mem_cons.mp hNone
    rw [List.cons_append, PlainList.gapWhere, hx, if_neg Bool.false_ne_true, ih hRest]
    cases ids <;> simp

/-- The ids a placement counts: the live ones, less the one left out. -/
def PlainList.counted (cells : PlainList V) (exclude : Option Stamp) (x : Stamp) : Bool :=
  live cells x && some x != exclude

theorem counted_none : PlainList.counted cells none = PlainList.live cells := by
  funext x
  simp [PlainList.counted]

theorem Refines.gapExcluding_eq (h : Refines l cells) (exclude : Option Stamp) (spans : List Span)
    (hRecords : ∀ s ∈ spans, l.IsRecord s) (index : Nat) (left : Option Stamp) :
    l.gapExcluding exclude spans index left =
      PlainList.gapWhere (PlainList.counted cells exclude) (spans.flatMap Span.ids) index left := by
  induction spans generalizing index left with
  | nil => cases index <;> rfl
  | cons s spans ih =>
    obtain ⟨hs, hRest⟩ := List.forall_mem_cons.mp hRecords
    rw [List.flatMap_cons]
    cases s with
    | node x =>
      cases index with
      | zero => rfl
      | succ index =>
        simp only [FugueList.gapExcluding, Span.ids, List.singleton_append, PlainList.gapWhere,
          ih hRest, PlainList.counted, h.live_iff]
        rfl
    | dead first len =>
      have hDead (x : Stamp) (hx : x ∈ (Span.dead first len).ids) :
          PlainList.counted cells exclude x = false := by
        rw [PlainList.counted, h.not_live_of_dead hs hx]
        rfl
      obtain ⟨head, run, i, j, hPiece, rfl, hLen⟩ := h.wf.isRecord_dead.mp hs
      have hlt := hPiece.lt
      obtain ⟨n, rfl⟩ : ∃ n, len = n + 1 := ⟨len - 1, by omega⟩
      cases index with
      | zero =>
        simp [FugueList.gapExcluding, Span.ids, List.range_succ_eq_map, PlainList.gapWhere,
          Span.head, runId_zero]
      | succ index =>
        rw [FugueList.gapExcluding, gapWhere_skip hDead, ih hRest]
        simp [Span.ids, Span.last, List.range_succ]

theorem Refines.hasRightChild_iff (h : Refines l cells) (x : Stamp) :
    l.hasRightChild x = true ↔ PlainList.childrenOf cells (some x) .right ≠ [] := by
  have hChild : PlainList.childrenOf cells (some x) .right ≠ [] ↔
      ∃ y, l.anchorOf y = some ⟨some x, .right⟩ := by
    simp only [← h.mem_childrenOf, ne_eq, List.eq_nil_iff_forall_not_mem, not_forall, not_not]
  rw [hChild, FugueList.hasRightChild, Bool.or_eq_true, List.any_eq_true]
  constructor
  · rintro (hRun | ⟨a, ha, hEq⟩)
    · cases hDead : deadRun l.dead x with
      | none => simp [hDead] at hRun
      | some e =>
        obtain ⟨head, run⟩ := e
        rw [hDead] at hRun
        obtain ⟨hEntry, hCovers⟩ := h.wf.runs.deadRun_eq_some.mp hDead
        have hId := eq_runId_of_covers hCovers
        obtain ⟨-, -, hLe, hLt⟩ := covers_iff.mp hCovers
        obtain ⟨i, hi⟩ : ∃ i, i = x.lamport - head.lamport := ⟨_, rfl⟩
        rw [← hi] at hId
        subst hId
        have hNe : i ≠ run.len - 1 := by
          rintro rfl
          simp at hRun
        have hNext : Holds l.dead head run (runId head (i + 1)) :=
          ⟨hEntry, covers_runId.mpr (by omega)⟩
        refine ⟨runId head (i + 1), ?_⟩
        have hNode : l.nodes[seqKey (runId head (i + 1))]? = none := by
          cases hn : l.nodes[seqKey (runId head (i + 1))]? with
          | none => rfl
          | some n => exact absurd hNext (h.wf.not_holds_node hn)
        rw [FugueList.anchorOf, hNode]
        dsimp only
        rw [h.wf.runs.deadAnchorOf_of_holds hNext, FugueList.chainAnchor_runId, if_neg (by omega)]
        rfl
    · obtain rfl := beq_iff_eq.mp hEq
      rcases FugueList.mem_anchors.mp ha with ⟨y, n, hNode, hAnchor⟩ | ⟨head, run, hRun, hAnchor⟩
      · exact ⟨y, by rw [FugueList.anchorOf, hNode, ← hAnchor]⟩
      · have hHolds : Holds l.dead head run head :=
          ⟨hRun, covers_head (h.wf.runs.pos head run hRun)⟩
        refine ⟨head, ?_⟩
        cases hn : l.nodes[seqKey head]? with
        | some n => exact absurd hHolds (h.wf.not_holds_node hn)
        | none =>
          rw [FugueList.anchorOf, hn]
          dsimp only
          rw [h.wf.runs.deadAnchorOf_of_holds hHolds, chainAnchor, if_pos rfl, hAnchor]
  · rintro ⟨y, hy⟩
    rcases h.wf.anchorOf_cases hy with hAnchor | ⟨head, run, i, hRun, hi, rfl, hEq⟩
    · exact .inr ⟨_, hAnchor, by simp⟩
    · left
      obtain rfl : x = runId head i := Option.some.inj (congrArg Anchor.parent hEq)
      rw [h.wf.runs.deadRun_eq_some.mpr ⟨hRun, covers_runId.mpr (by omega)⟩]
      simp only [bne_iff_ne, ne_eq, runId_inj]
      omega

theorem Refines.placement_eq (h : Refines l cells) (left right : Option Stamp) :
    l.placement left right = PlainList.placement cells left right := by
  unfold FugueList.placement PlainList.placement
  cases left with
  | none => cases right <;> rfl
  | some left =>
    dsimp only
    by_cases hChild : PlainList.childrenOf cells (some left) .right = []
    · have hNone : l.hasRightChild left = false :=
        Bool.eq_false_iff.mpr fun hTrue => (h.hasRightChild_iff left).mp hTrue hChild
      rw [if_pos hChild, hNone]
      rfl
    · rw [if_neg hChild, (h.hasRightChild_iff left).mpr hChild]
      rfl

theorem Refines.placeExcluding_eq (h : Refines l cells) (index : Nat) (exclude : Option Stamp) :
    l.placeExcluding index exclude =
      match PlainList.gapWhere (PlainList.counted cells exclude) (PlainList.order cells) index
        none with
      | (left, right) => PlainList.placement cells left right := by
  obtain ⟨hOrder, hRecords⟩ := h.order_eq
  unfold FugueList.placeExcluding
  rw [h.gapExcluding_eq exclude _ hRecords, ← hOrder]
  exact h.placement_eq _ _

theorem Refines.place_eq (h : Refines l cells) (index : Nat) :
    l.place index = PlainList.place cells index := by
  rw [FugueList.place, h.placeExcluding_eq, PlainList.place, gap_eq_gapWhere, counted_none]

end Place

section Operations

theorem Refines.alter (h : Refines l cells) {l' : FugueList V} {x : Stamp}
    {f : Option (Cell V) → Option (Cell V)} (hUpdates : FugueList.Updates l l' x f) :
    Refines l' (cells.alter x f) where
  wf := hUpdates.wf
  cell y := by rw [getElem?_alter_ite, hUpdates.cell, h.cell, h.cell]

theorem refines_new (id : ElementId) : Refines (FugueList.new id : FugueList V) ∅ where
  wf := FugueList.wf_new id
  cell x := by
    have hWF : Runs.WF (∅ : Runs) := wf_empty
    have hDead : deadAnchorOf ∅ x = none := by
      rw [hWF.deadAnchorOf_eq_none]
      intro head run hHolds
      simp [Holds] at hHolds
    simp [FugueList.cellAt, FugueList.new, hDead]

variable [SeqValue V]

theorem Refines.merge (h : Refines l cells) {other : FugueList V} {others : PlainList V}
    (hOther : Refines other others) : Refines (l.merge other) (PlainList.merge cells others) := by
  obtain ⟨hWF, hCell⟩ := h.wf.merge hOther.wf
  refine ⟨hWF, fun x => ?_⟩
  rw [hCell x, PlainList.merge, getElem?_foldl_alter_toList others, hOther.cell, h.cell]
  cases other.cellAt x <;> rfl

theorem Refines.insert (h : Refines l cells) (index : Nat) (value : V) (stamp : Stamp) :
    Refines (l.insert index value stamp) (PlainList.insert cells index value stamp) := by
  unfold FugueList.insert PlainList.insert
  rw [h.contains_eq, h.place_eq]
  split
  · exact h
  · exact h.alter (h.wf.insertAt stamp value _)

omit [SeqValue V] in
theorem Refines.delete (h : Refines l cells) (index : Nat) :
    Refines (l.delete index) (PlainList.delete cells index) := by
  unfold FugueList.delete PlainList.delete FugueList.nodeAt
  rw [h.liveOrder_eq]
  cases (PlainList.liveOrder cells)[index]? with
  | some x => exact h.alter (h.wf.deleteId x)
  | none => exact h

/-- A list as the public operations build it, a merged peer included. -/
inductive Build (V : Type)
  | new (id : ElementId)
  | insert (list : Build V) (index : Nat) (value : V) (stamp : Stamp)
  | insertAt (list : Build V) (id : Stamp) (value : V) (anchor : Anchor)
  | reseat (list : Build V) (id : Stamp) (value : V) (anchor : Anchor)
  | rejoin (list : Build V) (id : Stamp) (value : V) (anchor : Anchor)
  | delete (list : Build V) (index : Nat)
  | deleteId (list : Build V) (id : Stamp)
  | setMovedAway (list : Build V) (id : Stamp) (away : Bool)
  | merge (list other : Build V)

namespace Build

def compressed : Build V → FugueList V
  | new id => FugueList.new id
  | insert list index value stamp => list.compressed.insert index value stamp
  | insertAt list id value anchor => list.compressed.insertAt id value anchor
  | reseat list id value anchor => list.compressed.reseat id value anchor
  | rejoin list id value anchor => list.compressed.rejoin id value anchor
  | delete list index => list.compressed.delete index
  | deleteId list id => list.compressed.deleteId id
  | setMovedAway list id away => list.compressed.setMovedAway id away
  | merge list other => list.compressed.merge other.compressed

def plain : Build V → PlainList V
  | new _ => ∅
  | insert list index value stamp => PlainList.insert list.plain index value stamp
  | insertAt list id value anchor => list.plain.alter id (Cell.insert value anchor)
  | reseat list id value anchor => list.plain.alter id (Cell.reseat value anchor)
  | rejoin list id value anchor => list.plain.alter id (Cell.rejoin value anchor)
  | delete list index => PlainList.delete list.plain index
  | deleteId list id => list.plain.alter id Cell.delete
  | setMovedAway list id away => list.plain.alter id (Cell.setMovedAway away)
  | merge list other => PlainList.merge list.plain other.plain

theorem refines (b : Build V) : Refines b.compressed b.plain := by
  induction b with
  | new id => exact refines_new id
  | insert _ index value stamp ih => exact ih.insert index value stamp
  | insertAt _ id value anchor ih => exact ih.alter (ih.wf.insertAt id value anchor)
  | reseat _ id value anchor ih => exact ih.alter (ih.wf.reseat id value anchor)
  | rejoin _ id value anchor ih => exact ih.alter (ih.wf.rejoin id value anchor)
  | delete _ index ih => exact ih.delete index
  | deleteId _ id ih => exact ih.alter (ih.wf.deleteId id)
  | setMovedAway _ id away ih => exact ih.alter (ih.wf.setMovedAway id away)
  | merge _ _ ih ihOther => exact ih.merge ihOther

/-- However it was built, the run-compressed list shows the live ids, the values and
the anchors of the plain one, whose order is the whole walk of its anchor tree. -/
theorem compressed_eq_plain (b : Build V) :
    b.compressed.liveOrder = PlainList.liveOrder b.plain ∧
      (∀ id, b.compressed.nodeValue id = (b.plain[id]?.bind fun c => c.item).map (·.value)) ∧
      (∀ id, b.compressed.anchorOf id = b.plain[id]?.map (·.anchor)) ∧
      (PlainList.tree b.plain).Walks ((PlainList.tree b.plain).children none)
        (PlainList.order b.plain) := by
  have h := b.refines
  refine ⟨h.liveOrder_eq, h.nodeValue_eq, h.anchorOf_eq, ?_⟩
  exact Forest.walks_order h.isForest (by simp)

end Build

end Operations

end CrdtSync
