import CrdtSync.Core.FugueRefinement
import CrdtSync.Lib.ForestGrowth

/-!
# Where an insert lands

A fresh id is walked right at the gap it was placed for: the anchor the gap gives is free of
children on its side, whatever is deleted or away around it.
-/

namespace CrdtSync

open Lib Runs SeqValue
open Std (ExtTreeMap)

namespace FugueList

variable {V : Type}

/-- Every id of the list, live and deleted. -/
def ids (l : FugueList V) : List Stamp :=
  l.nodes.toList.map (fun e => seqStamp e.1) ++
    l.dead.toList.flatMap fun e => (List.range e.2.len).map (runId (seqStamp e.1))

def plain (l : FugueList V) : PlainList V :=
  l.ids.foldl (fun cells id => cells.alter id fun _ => l.cellAt id) ∅

def names (l : FugueList V) (s : Stamp) : Bool :=
  l.contains s || l.anchors.any fun a => a.parent == some s

theorem getElem?_foldl_cells (f : Stamp → Option (Cell V)) (ids : List Stamp)
    (cells : PlainList V) (x : Stamp) :
    (ids.foldl (fun cells id => cells.alter id fun _ => f id) cells)[x]? =
      if x ∈ ids then f x else cells[x]? := by
  induction ids generalizing cells with
  | nil => simp
  | cons id ids ih =>
    rw [List.foldl_cons, ih, getElem?_alter_ite]
    by_cases hIn : x ∈ ids
    · simp [hIn]
    · by_cases hEq : x = id <;> simp [hIn, hEq]

theorem WF.mem_ids {l : FugueList V} (h : l.WF) {x : Stamp} (hx : l.cellAt x ≠ none) :
    x ∈ l.ids := by
  rw [ne_eq, cellAt_eq_none, not_and_or] at hx
  rw [ids, List.mem_append]
  rcases hx with hNode | hDead
  · obtain ⟨n, hn⟩ := Option.ne_none_iff_exists'.mp hNode
    exact .inl (List.mem_map.mpr ⟨(seqKey x, n), mem_toList_iff.mpr hn, rfl⟩)
  · obtain ⟨a, ha⟩ := Option.ne_none_iff_exists'.mp hDead
    obtain ⟨head, run, hHolds, -⟩ := h.runs.deadAnchorOf_eq_some.mp ha
    refine .inr (List.mem_flatMap.mpr ⟨(seqKey head, run), mem_toList_iff.mpr hHolds.1, ?_⟩)
    obtain ⟨-, -, hLe, hLt⟩ := covers_iff.mp hHolds.2
    have hPlace : x.lamport - head.lamport < run.len := by omega
    exact List.mem_map.mpr ⟨x.lamport - head.lamport, List.mem_range.mpr hPlace,
      (eq_runId_of_covers hHolds.2).symm⟩

theorem WF.refines {l : FugueList V} (h : l.WF) : Refines l l.plain where
  wf := h
  cell x := by
    rw [plain, getElem?_foldl_cells]
    split
    · rfl
    next hOut =>
      rw [ExtTreeMap.getElem?_empty]
      by_contra hCell
      exact hOut (h.mem_ids (Ne.symm hCell))

end FugueList

namespace PlainList

variable {V : Type} {cells cells' : PlainList V}

/-- The cell of `x` is put where there was none. -/
structure Adds (cells cells' : PlainList V) (x : Stamp) (a : Anchor) (item : Option (Item V)) :
    Prop where
  vacant : cells[x]? = none
  cell : ∀ y, cells'[y]? = if y = x then some ⟨a, item⟩ else cells[y]?

theorem mem_childrenOf {p : Option Stamp} {side : Side} {id : Stamp} :
    id ∈ childrenOf cells p side ↔ ∃ c, cells[id]? = some c ∧ c.anchor = ⟨p, side⟩ := by
  unfold childrenOf
  simp only [List.mem_map, List.mem_filter, Prod.exists, mem_toList_iff, decide_eq_true_eq]
  constructor
  · rintro ⟨_, c, ⟨hCell, hAnchor⟩, rfl⟩
    exact ⟨c, hCell, hAnchor⟩
  · rintro ⟨c, hCell, hAnchor⟩
    exact ⟨id, c, ⟨hCell, hAnchor⟩, rfl⟩

variable {x : Stamp} {a : Anchor} {item : Option (Item V)} {pre post : List Stamp}
  {l : Stamp}

/-- The new id is the only child of its anchor. -/
theorem Adds.childrenOf_eq (h : Adds cells cells' x a item)
    (hSole : childrenOf cells a.parent a.side = []) (p : Option Stamp) (side : Side) :
    childrenOf cells' p side = childrenOf cells p side ++ if a = ⟨p, side⟩ then [x] else [] := by
  refine (childrenOf_sorted p side).eq_of_mem_iff (List.pairwise_append.mpr
    ⟨childrenOf_sorted p side, by split <;> simp, fun id hIn y hy => ?_⟩) fun id => ?_
  · split at hy
    next hAt =>
      subst hAt
      rw [hSole] at hIn
      cases hIn
    next => cases hy
  · rw [List.mem_append, mem_childrenOf, mem_childrenOf, h.cell]
    by_cases hSelf : id = x
    · subst hSelf
      by_cases hAnchor : a = ⟨p, side⟩ <;> simp [hAnchor, h.vacant]
    · by_cases hAnchor : a = ⟨p, side⟩ <;> simp [hAnchor, hSelf]

theorem childrenOf_eq_nil_of_walk {V : Type} {cells : PlainList V}
    (hWalk : (tree cells).Walks ((tree cells).children none) []) (side : Side) :
    childrenOf cells none side = [] := by
  have hTop : (tree cells).children none = [] := by
    generalize (tree cells).children none = xs at hWalk
    generalize hOut : ([] : List Stamp) = out at hWalk
    cases hWalk with
    | nil => rfl
    | cons => simp at hOut
  obtain ⟨hLeft, hRight⟩ := List.append_eq_nil_iff.mp hTop
  cases side
  · exact hLeft
  · exact hRight

/-- Where a new leaf hangs in the tree of the list. -/
def leafAt (a : Anchor) (side : Side) (x b : Stamp) : List Stamp :=
  if a = ⟨some b, side⟩ then [x] else []

/-- Fresh below a node that has room for it, an id is walked right beside that node. -/
theorem Adds.order_eq (h : Adds cells cells' x a item)
    (hSole : childrenOf cells a.parent a.side = [])
    (hChildless : ∀ side, childrenOf cells (some x) side = [])
    (hWalk : (tree cells).Walks ((tree cells).children none) (order cells))
    (hWalk' : (tree cells').Walks ((tree cells').children none) (order cells'))
    {p : Stamp} (hParent : a.parent = some p) (hNe : p ≠ x) :
    order cells' =
      (order cells).flatMap fun b => leafAt a .left x b ++ b :: leafAt a .right x b := by
  have hSelf (side : Side) : childrenOf cells' (some x) side = [] := by
    have hNot : a ≠ ⟨some x, side⟩ := fun hEq => by
      rw [hEq] at hParent
      exact hNe (Option.some_inj.mp hParent).symm
    rw [h.childrenOf_eq hSole, hChildless, if_neg hNot]
    rfl
  have hLeaf (b : Stamp) (side : Side) :
      (tree cells').Walks (leafAt a side x b) (leafAt a side x b) := by
    rw [leafAt]
    split
    · have hNil (side : Side) : (tree cells').Walks (childrenOf cells' (some x) side) [] := by
        rw [hSelf]
        exact .nil
      exact Forest.Walks.cons (hNil .left) (hNil .right) .nil
    · exact .nil
  have hAdds : Forest.AddsLeaves (tree cells) (tree cells') (leafAt a .left x)
      (leafAt a .right x) := by
    refine ⟨fun b => h.childrenOf_eq hSole _ _, fun b => h.childrenOf_eq hSole _ _,
      fun b hAfter => ?_, fun b => hLeaf b .left, fun b => hLeaf b .right⟩
    rw [leafAt] at hAfter
    split at hAfter
    next hAt =>
      rw [hAt] at hSole
      exact hSole
    next => exact absurd rfl hAfter
  have hTop : (tree cells').children none = (tree cells).children none := by
    have hNone (side : Side) : a ≠ ⟨none, side⟩ := fun hEq => by
      rw [hEq] at hParent
      cases hParent
    have hSide (side : Side) : childrenOf cells' none side = childrenOf cells none side := by
      rw [h.childrenOf_eq hSole, if_neg (hNone side), List.append_nil]
    change childrenOf cells' none .left ++ childrenOf cells' none .right = _
    rw [hSide, hSide]
    rfl
  rw [hTop] at hWalk'
  exact hWalk'.unique (hWalk.addsLeaves hAdds)

/-- The gap splits the order where `index` ids are counted, right after the last of them. -/
theorem gapWhere_spec (counted : Stamp → Bool) (order : List Stamp) (index : Nat)
    (left : Option Stamp) :
    ∃ pre post, order = pre ++ post ∧
      gapWhere counted order index left = (pre.getLast?.or left, post.head?) ∧
      (pre.filter counted).length = min index (order.filter counted).length ∧
      (index ≤ (order.filter counted).length → ∀ y, pre.getLast? = some y → counted y = true) := by
  induction order generalizing index left with
  | nil => exact ⟨[], [], rfl, rfl, by simp, by simp⟩
  | cons id order ih =>
    cases index with
    | zero => exact ⟨[], id :: order, rfl, rfl, by simp, by simp⟩
    | succ index =>
      obtain ⟨pre, post, rfl, hGap, hCount, hLast⟩ :=
        ih (if counted id then index else index + 1) (some id)
      have hEdge : (id :: pre).getLast?.or left = pre.getLast?.or (some id) := by
        cases hPre : pre.getLast? with
        | none => rw [List.getLast?_cons, hPre]; rfl
        | some y => rw [List.getLast?_cons, hPre]; rfl
      refine ⟨id :: pre, post, rfl, ?_, ?_⟩
      · rw [gapWhere, hGap, hEdge]
      · cases hCounted : counted id with
        | false =>
          rw [hCounted, if_neg Bool.false_ne_true] at hLast hCount
          rw [List.filter_cons_of_neg (by simp [hCounted]),
            List.filter_cons_of_neg (by simp [hCounted])]
          refine ⟨hCount, fun hIndex y hy => ?_⟩
          cases hPre : pre.getLast? with
          | none =>
            -- the gap is past an id that is counted
            obtain rfl := List.getLast?_eq_none_iff.mp hPre
            rw [List.filter_nil, List.length_nil] at hCount
            omega
          | some z =>
            rw [List.getLast?_cons, hPre] at hy
            obtain rfl := Option.some_inj.mp hy
            exact hLast hIndex z hPre
        | true =>
          rw [hCounted, if_pos rfl] at hLast hCount
          rw [List.filter_cons_of_pos hCounted, List.filter_cons_of_pos hCounted,
            List.length_cons, List.length_cons]
          refine ⟨by omega, fun hIndex y hy => ?_⟩
          cases hPre : pre.getLast? with
          | none =>
            rw [List.getLast?_cons, hPre] at hy
            obtain rfl := Option.some_inj.mp hy
            exact hCounted
          | some z =>
            rw [List.getLast?_cons, hPre] at hy
            obtain rfl := Option.some_inj.mp hy
            exact hLast (by omega) z hPre

theorem flatMap_leafAt {xs : List Stamp} (hNot : ∀ b ∈ xs, a.parent ≠ some b) :
    (xs.flatMap fun b => leafAt a .left x b ++ b :: leafAt a .right x b) = xs := by
  have hSide (side : Side) (b : Stamp) (hb : b ∈ xs) : leafAt a side x b = [] :=
    if_neg fun hEq => hNot b hb (congrArg Anchor.parent hEq)
  calc
    _ = xs.flatMap fun b => [b] := by
      refine List.flatMap_congr fun b hb => ?_
      rw [hSide .left b hb, hSide .right b hb]
      rfl
    _ = xs := by simp

/-- A gap of the order is free: the anchor it gives has no child yet. -/
theorem placement_sole (hOrder : order cells = pre ++ post) (hNodup : (order cells).Nodup)
    (hWalk : (tree cells).Walks ((tree cells).children none) (order cells)) :
    childrenOf cells (placement cells pre.getLast? post.head?).parent
      (placement cells pre.getLast? post.head?).side = [] := by
  rw [hOrder] at hWalk hNodup
  -- what hangs to the left of the id after the gap is walked before the gap
  have hLeft (r : Stamp) (post' : List Stamp) (hPost : post = r :: post')
      (hPre : ∀ l, pre.getLast? = some l → childrenOf cells (some l) .right ≠ []) :
      childrenOf cells (some r) .left = [] := by
    subst hPost
    obtain ⟨u, ls, v, hSplit, hBefore⟩ := hWalk.left_before (r := r) (by simp)
    obtain rfl : pre = u ++ ls := by
      have hOnce := List.nodup_append.mp hNodup
      rw [← List.append_assoc] at hSplit
      rcases List.append_eq_append_iff.mp hSplit with ⟨e, hPre, hPost⟩ | ⟨e, hPre, hPost⟩
      · cases e with
        | nil => exact (hPre.trans (List.append_nil pre)).symm
        | cons b e =>
          obtain ⟨rfl, rfl⟩ := List.cons_eq_cons.mp hPost
          exact absurd (by simp) (List.nodup_cons.mp hOnce.2.1).1
      · cases e with
        | nil => exact hPre.trans (List.append_nil _)
        | cons b e =>
          obtain ⟨rfl, -⟩ := List.cons_eq_cons.mp hPost
          exact absurd rfl (hOnce.2.2 r (by simp [hPre]) r (by simp))
    rcases List.eq_nil_or_concat ls with rfl | ⟨ls, l, rfl⟩
    · refine List.eq_nil_iff_forall_not_mem.mpr fun d hd => ?_
      exact List.not_mem_nil (hBefore.mem_of_below hd .refl)
    · rw [List.concat_eq_append] at *
      have hApart := (List.nodup_append.mp (List.nodup_append.mp hNodup).1).2.1
      exact absurd (hBefore.right_of_last hApart) (hPre l (by simp))
  rcases List.eq_nil_or_concat pre with rfl | ⟨pre', l, rfl⟩
  · cases post with
    | cons r post' => exact hLeft r post' rfl (by rintro _ ⟨⟩)
    | nil => exact childrenOf_eq_nil_of_walk hWalk .right
  · rw [List.concat_eq_append] at *
    rw [List.getLast?_concat] at hLeft ⊢
    by_cases hBare : childrenOf cells (some l) .right = []
    · simp only [placement, hBare, if_true]
    · cases post with
      | nil =>
        rw [List.append_nil] at hWalk hNodup
        exact absurd (hWalk.right_of_last hNodup) hBare
      | cons r post' =>
        simp only [placement, hBare, if_false]
        exact hLeft r post' rfl fun l' hl' => Option.some_inj.mp hl' ▸ hBare

/-- Placed at a gap, a new id is walked in the gap. -/
theorem Adds.order_split (h : Adds cells cells' x (placement cells pre.getLast? post.head?) item)
    (hChildless : ∀ side, childrenOf cells (some x) side = []) (hOrder : order cells = pre ++ post)
    (hNodup : (order cells).Nodup)
    (hWalk : (tree cells).Walks ((tree cells).children none) (order cells))
    (hWalk' : (tree cells').Walks ((tree cells').children none) (order cells'))
    (hHeld : ∀ y ∈ order cells, ∃ c, cells[y]? = some c) :
    order cells' = pre ++ x :: post := by
  have hSole := placement_sole hOrder hNodup hWalk
  have hNe (y : Stamp) (hy : y ∈ pre ++ post) : y ≠ x := by
    rintro rfl
    obtain ⟨c, hCell⟩ := hHeld y (hOrder ▸ hy)
    rw [h.vacant] at hCell
    cases hCell
  have hApart := List.nodup_append.mp (hOrder ▸ hNodup)
  -- to the left of what comes after the gap
  have hLeft (r : Stamp) (post' : List Stamp) (hPost : post = r :: post')
      (hPlace : placement cells pre.getLast? post.head? = ⟨some r, .left⟩) :
      order cells' = pre ++ x :: post := by
    subst hPost
    rw [hPlace] at h hSole
    rw [h.order_eq hSole hChildless hWalk hWalk' rfl (hNe r (by simp)), hOrder,
      List.flatMap_append, List.flatMap_cons, flatMap_leafAt, flatMap_leafAt]
    · simp [leafAt]
    · rintro b hb hEq
      obtain rfl := Option.some_inj.mp hEq
      exact (List.nodup_cons.mp hApart.2.1).1 hb
    · rintro b hb hEq
      obtain rfl := Option.some_inj.mp hEq
      exact hApart.2.2 r hb r (by simp) rfl
  rcases List.eq_nil_or_concat pre with rfl | ⟨pre', l, rfl⟩
  · cases post with
    | cons r post' => exact hLeft r post' rfl rfl
    | nil =>
      -- the first id of the list
      rw [List.getLast?_nil, List.head?_nil, placement] at h hSole
      rw [hOrder] at hWalk
      have hChild (p : Option Stamp) (side : Side) := h.childrenOf_eq hSole p side
      have hLeaf (side : Side) : childrenOf cells' (some x) side = [] := by
        rw [hChild, hChildless, if_neg (by simp)]
        rfl
      have hTop : (tree cells').children none = [x] := by
        change childrenOf cells' none .left ++ childrenOf cells' none .right = [x]
        rw [hChild, hChild, childrenOf_eq_nil_of_walk hWalk, childrenOf_eq_nil_of_walk hWalk]
        simp
      have hNil (side : Side) : (tree cells').Walks (childrenOf cells' (some x) side) [] := by
        rw [hLeaf]
        exact .nil
      rw [hTop] at hWalk'
      exact hWalk'.unique (Forest.Walks.cons (hNil .left) (hNil .right) .nil)
  · rw [List.concat_eq_append] at *
    rw [List.getLast?_concat] at h hLeft hSole
    by_cases hBare : childrenOf cells (some l) .right = []
    · have hPlace : placement cells (some l) post.head? = ⟨some l, .right⟩ := by
        unfold placement
        exact if_pos hBare
      rw [hPlace] at h hSole
      rw [h.order_eq hSole hChildless hWalk hWalk' rfl (hNe l (by simp)), hOrder, List.append_assoc,
        List.flatMap_append, List.singleton_append, List.flatMap_cons, flatMap_leafAt, flatMap_leafAt]
      · simp [leafAt]
      · rintro b hb hEq
        obtain rfl := Option.some_inj.mp hEq
        exact hApart.2.2 l (by simp) l hb rfl
      · rintro b hb hEq
        obtain rfl := Option.some_inj.mp hEq
        exact (List.nodup_append.mp hApart.1).2.2 l hb l (by simp) rfl
    · cases post with
      | nil =>
        rw [hOrder, List.append_nil] at hWalk hNodup
        exact absurd (hWalk.right_of_last hNodup) hBare
      | cons r post' =>
        refine hLeft r post' rfl ?_
        unfold placement
        exact if_neg hBare

end PlainList

variable {V : Type} {l : FugueList V} {cells : PlainList V} {x : Stamp}

theorem Refines.walks_plain (h : Refines l cells) :
    (PlainList.tree cells).Walks ((PlainList.tree cells).children none) (PlainList.order cells) :=
  Forest.walks_order h.isForest (by simp)

theorem Refines.order_nodup (h : Refines l cells) : (PlainList.order cells).Nodup :=
  h.walks_plain.nodup h.isForest (fun _ ha => .root ha) (h.isForest.nodup none (by simp))

theorem Refines.held_of_order (h : Refines l cells) {y : Stamp} (hy : y ∈ PlainList.order cells) :
    ∃ c, cells[y]? = some c := by
  obtain ⟨a, ha, hBelow⟩ := h.walks_plain.mem_below hy
  obtain ⟨e, hIn, rfl⟩ := List.mem_map.mp (hBelow.mem h.isForest (h.isForest.mem none a ha))
  exact ⟨e.2, mem_toList_iff.mp hIn⟩

theorem Refines.childless (h : Refines l cells) (hNames : l.names x = false) (side : Side) :
    PlainList.childrenOf cells (some x) side = [] := by
  obtain ⟨hOut, hParents⟩ := Bool.or_eq_false_iff.mp hNames
  refine List.eq_nil_iff_forall_not_mem.mpr fun id hIn => ?_
  obtain ⟨c, hCell, hAnchor⟩ := PlainList.mem_childrenOf.mp hIn
  have hHeld : l.anchorOf id = some ⟨some x, side⟩ := by rw [h.anchorOf_eq, hCell, ← hAnchor]; rfl
  rcases h.wf.anchorOf_cases hHeld with hAt | ⟨head, run, i, hRun, hi, rfl, hEq⟩
  · simpa using List.any_eq_false.mp hParents _ hAt
  · -- the id before it in its run
    obtain rfl := Option.some_inj.mp (congrArg Anchor.parent hEq)
    have hHolds : Holds l.dead head run (runId head i) := ⟨hRun, covers_runId.mpr (by omega)⟩
    have hDead := h.wf.runs.deadAnchorOf_of_holds hHolds
    rw [h.contains_eq, ← Bool.not_eq_true, ← ExtTreeMap.isSome_getElem?_eq_contains,
      Bool.not_eq_true, Option.isSome_eq_false_iff, Option.isNone_iff_eq_none, h.cell,
      FugueList.cellAt_eq_none, hDead] at hOut
    simp at hOut

theorem Refines.vacant (h : Refines l cells) (hNames : l.names x = false) : l.cellAt x = none := by
  have hOut := (Bool.or_eq_false_iff.mp hNames).1
  rw [h.contains_eq, ← ExtTreeMap.isSome_getElem?_eq_contains, h.cell] at hOut
  exact Option.isNone_iff_eq_none.mp (Option.isSome_eq_false_iff.mp hOut)

variable [SeqValue V]

/-- What inserting a new id at a gap does: the gap splits the order, and the id is walked there. -/
structure Inserts (l l' : FugueList V) (x : Stamp) (value : V) (a : Anchor)
    (exclude : Option Stamp) (index : Nat) (pre post : List Stamp) : Prop where
  cell : ∀ y, l'.cellAt y = if y = x then some ⟨a, some ⟨value, false⟩⟩ else l.cellAt y
  vacant : l.cellAt x = none
  order : PlainList.order l.plain = pre ++ post
  order' : PlainList.order l'.plain = pre ++ x :: post
  count : (pre.filter (PlainList.counted l.plain exclude)).length =
    min index ((pre ++ post).filter (PlainList.counted l.plain exclude)).length
  last : index ≤ ((pre ++ post).filter (PlainList.counted l.plain exclude)).length →
    ∀ y, pre.getLast? = some y → PlainList.counted l.plain exclude y = true
  anchor : a = PlainList.placement l.plain pre.getLast? post.head?

theorem FugueList.WF.inserts (h : l.WF) (hNames : l.names x = false) (value : V)
    (index : Nat) (exclude : Option Stamp) :
    ∃ pre post, Inserts l (l.insertAt x value (l.placeExcluding index exclude)) x value
      (l.placeExcluding index exclude) exclude index pre post := by
  have hRefines := h.refines
  obtain ⟨pre, post, hOrder, hGap, hCount, hLast⟩ := PlainList.gapWhere_spec
    (PlainList.counted l.plain exclude) (PlainList.order l.plain) index none
  have hPlace : l.placeExcluding index exclude =
      PlainList.placement l.plain pre.getLast? post.head? := by
    rw [hRefines.placeExcluding_eq, hGap, Option.or_none]
  have hUpdates := h.insertAt x value (l.placeExcluding index exclude)
  have hVacant := hRefines.vacant hNames
  have hCell (y : Stamp) : (l.insertAt x value (l.placeExcluding index exclude)).cellAt y =
      if y = x then some ⟨l.placeExcluding index exclude, some ⟨value, false⟩⟩
      else l.cellAt y := by
    rw [hUpdates.cell, hVacant]
    rfl
  have hRefines' := hUpdates.wf.refines
  have hAdds : PlainList.Adds l.plain (l.insertAt x value (l.placeExcluding index exclude)).plain x
      (PlainList.placement l.plain pre.getLast? post.head?) (some ⟨value, false⟩) := by
    refine ⟨by rw [hRefines.cell, hVacant], fun y => ?_⟩
    rw [hRefines'.cell, hCell, hPlace, hRefines.cell]
  refine ⟨pre, post, hCell, hVacant, hOrder, ?_, hOrder ▸ hCount, hOrder ▸ hLast, hPlace⟩
  exact hAdds.order_split (hRefines.childless hNames) hOrder hRefines.order_nodup hRefines.walks_plain
    hRefines'.walks_plain fun y hy => hRefines.held_of_order hy

theorem insertIdx_split {α : Type} (xs ys : List α) (a : α) :
    (xs ++ ys).insertIdx xs.length a = xs ++ a :: ys := by
  induction xs with
  | nil => rfl
  | cons b xs ih => simpa using ih

namespace Inserts

variable {l' : FugueList V} {value : V} {a : Anchor} {exclude : Option Stamp} {index : Nat}
  {pre post : List Stamp}

omit [SeqValue V] in
theorem ne_of_split (h : Inserts l l' x value a exclude index pre post) (hWF : l.WF) :
    ∀ y ∈ pre ++ post, y ≠ x := by
  rintro y hy rfl
  obtain ⟨c, hCell⟩ := hWF.refines.held_of_order (h.order ▸ hy)
  rw [hWF.refines.cell, h.vacant] at hCell
  cases hCell

omit [SeqValue V] in
/-- The new id is live, and no other id's liveness changes. -/
theorem live_eq (h : Inserts l l' x value a exclude index pre post) (hWF : l.WF) (hWF' : l'.WF)
    (y : Stamp) : PlainList.live l'.plain y = if y = x then true else PlainList.live l.plain y := by
  unfold PlainList.live
  rw [hWF'.refines.cell, hWF.refines.cell, h.cell]
  by_cases hy : y = x <;> simp [hy]

omit [SeqValue V] in
/-- The new id is shown at the gap. -/
theorem filter_live (h : Inserts l l' x value a exclude index pre post) (hWF : l.WF) (hWF' : l'.WF) :
    l.liveOrder = pre.filter (PlainList.live l.plain) ++ post.filter (PlainList.live l.plain) ∧
      l'.liveOrder =
        pre.filter (PlainList.live l.plain) ++ x :: post.filter (PlainList.live l.plain) := by
  have hOut := h.ne_of_split hWF
  have hLive := h.live_eq hWF hWF'
  have hSame (ys : List Stamp) (hys : ∀ y ∈ ys, y ≠ x) :
      ys.filter (PlainList.live l'.plain) = ys.filter (PlainList.live l.plain) :=
    List.filter_congr fun y hy => by rw [hLive, if_neg (hys y hy)]
  constructor
  · rw [hWF.refines.liveOrder_eq, PlainList.liveOrder, h.order, List.filter_append]
  · rw [hWF'.refines.liveOrder_eq, PlainList.liveOrder, h.order', List.filter_append,
      List.filter_cons_of_pos (by rw [hLive, if_pos rfl]),
      hSame pre fun y hy => hOut y (List.mem_append_left _ hy),
      hSame post fun y hy => hOut y (List.mem_append_right _ hy)]

omit [SeqValue V] in
/-- Among the ids the placement counts, the new one has the index asked for. -/
theorem insertIdx (h : Inserts l l' x value a exclude index pre post) (hWF : l.WF) (hWF' : l'.WF)
    (hIndex : index ≤ (l.liveOrder.filter fun y => some y != exclude).length)
    (hExclude : exclude ≠ some x) :
    (l'.liveOrder.filter fun y => some y != exclude) =
      (l.liveOrder.filter fun y => some y != exclude).insertIdx index x := by
  obtain ⟨hOld, hNew⟩ := h.filter_live hWF hWF'
  have hCounted (ys : List Stamp) :
      ((ys.filter (PlainList.live l.plain)).filter fun y => some y != exclude) =
        ys.filter (PlainList.counted l.plain exclude) := by
    rw [List.filter_filter]
    exact List.filter_congr fun y _ => Bool.and_comm _ _
  have hCount := h.count
  rw [hOld, List.filter_append, hCounted, hCounted, ← List.filter_append] at hIndex
  rw [min_eq_left hIndex] at hCount
  rw [hOld, hNew, List.filter_append, List.filter_append, hCounted, hCounted,
    List.filter_cons_of_pos (by simpa using hExclude.symm), hCounted, ← hCount, insertIdx_split]

end Inserts

/-- Placing a new item at a live index puts it there: the items from the index on move up by one
and nothing else changes, the value of no other item either. A placement that leaves an item out
reads the index with that item gone. -/
theorem insertion_intent :
    (∀ b : Build V, b.compressed.WF) ∧
    ∀ (l : FugueList V) (stamp : Stamp) (value : V) (index : Nat) (exclude : Option Stamp),
      l.WF → (∀ s, l.names s = true → s < stamp) → exclude ≠ some stamp →
      (index ≤ l.liveOrder.length →
        (l.insertAt stamp value (l.place index)).liveOrder = l.liveOrder.insertIdx index stamp) ∧
      (index ≤ (l.liveOrder.filter fun y => some y != exclude).length →
        ((l.insertAt stamp value (l.placeExcluding index exclude)).liveOrder.filter fun y =>
            some y != exclude) =
          (l.liveOrder.filter fun y => some y != exclude).insertIdx index stamp) ∧
      ((l.insertAt stamp value (l.placeExcluding index exclude)).liveOrder.filter fun y =>
        y != stamp) = l.liveOrder ∧
      ∀ id, (l.insertAt stamp value (l.placeExcluding index exclude)).nodeValue id =
        if id = stamp then some value else l.nodeValue id := by
  refine ⟨fun b => b.refines.wf, fun l stamp value index exclude hWF hNewest hExclude => ?_⟩
  have hNames : l.names stamp = false := by
    rw [← Bool.not_eq_true]
    exact fun hIn => lt_irrefl stamp (hNewest stamp hIn)
  have hWF' (a : Anchor) := (hWF.insertAt stamp value a).wf
  obtain ⟨pre, post, hInserts⟩ := hWF.inserts hNames value index exclude
  refine ⟨fun hIndex => ?_, fun hIndex => hInserts.insertIdx hWF (hWF' _) hIndex hExclude, ?_, ?_⟩
  · obtain ⟨pre, post, hPlain⟩ := hWF.inserts hNames value index none
    have hNone (ys : List Stamp) : (ys.filter fun y => some y != none) = ys :=
      List.filter_eq_self.mpr fun y _ => rfl
    have hAll := hPlain.insertIdx hWF (hWF' _) (by rwa [hNone]) nofun
    rwa [hNone, hNone] at hAll
  · obtain ⟨hOld, hNew⟩ := hInserts.filter_live hWF (hWF' _)
    have hOut := hInserts.ne_of_split hWF
    have hKeep (ys : List Stamp) (hys : ∀ y ∈ ys, y ≠ stamp) :
        ((ys.filter (PlainList.live l.plain)).filter fun y => y != stamp) =
          ys.filter (PlainList.live l.plain) :=
      List.filter_eq_self.mpr fun y hy => bne_iff_ne.mpr (hys y (List.mem_of_mem_filter hy))
    rw [hNew, hOld, List.filter_append, List.filter_cons_of_neg (by simp),
      hKeep pre fun y hy => hOut y (List.mem_append_left _ hy),
      hKeep post fun y hy => hOut y (List.mem_append_right _ hy)]
  · intro id
    rw [(hWF' _).refines.nodeValue_eq, hWF.refines.nodeValue_eq, (hWF' _).refines.cell,
      hInserts.cell, hWF.refines.cell]
    split <;> rfl

section Example

local instance placedValue : SeqValue Char := ⟨fun _ => .scalar, fun c => [c.toNat.toUInt8], fun c _ => c⟩

def twoTyped : Build Char :=
  .insert (.insert (.new (.fromBytes 0)) 0 'a' ⟨1, ⟨1⟩, 0⟩) 1 'c' ⟨2, ⟨1⟩, 0⟩

/-- A third one is placed between them. -/
theorem insertion_intent_twoTyped :
    (twoTyped.compressed.insertAt ⟨3, ⟨1⟩, 0⟩ 'b' (twoTyped.compressed.place 1)).liveOrder =
      [⟨1, ⟨1⟩, 0⟩, ⟨3, ⟨1⟩, 0⟩, ⟨2, ⟨1⟩, 0⟩] := by
  have hWF := insertion_intent.1 twoTyped
  have hLive : twoTyped.compressed.liveOrder = [⟨1, ⟨1⟩, 0⟩, ⟨2, ⟨1⟩, 0⟩] := by decide +kernel
  have hIds : ∀ s ∈ twoTyped.compressed.ids, s < ⟨3, ⟨1⟩, 0⟩ := by decide +kernel
  have hAnchors : ∀ a ∈ twoTyped.compressed.anchors, ∀ s ∈ a.parent, s < ⟨3, ⟨1⟩, 0⟩ := by
    decide +kernel
  have hNewest : ∀ s, twoTyped.compressed.names s = true → s < ⟨3, ⟨1⟩, 0⟩ := by
    intro s hNamed
    rcases Bool.or_eq_true_iff.mp hNamed with hIn | hAnchor
    · rw [hWF.refines.contains_eq, ← ExtTreeMap.isSome_getElem?_eq_contains, hWF.refines.cell,
        Option.isSome_iff_ne_none] at hIn
      exact hIds s (hWF.mem_ids hIn)
    · obtain ⟨a, hIn, hParent⟩ := List.any_eq_true.mp hAnchor
      exact hAnchors a hIn s (eq_of_beq hParent)
  have hPlaced := (insertion_intent.2 twoTyped.compressed ⟨3, ⟨1⟩, 0⟩ 'b' 1 none hWF hNewest nofun).1
  rw [hPlaced (by rw [hLive]; decide), hLive]
  rfl

end Example

end CrdtSync
