import CrdtSync.Core.Restored
import CrdtSync.Core.FugueGrowth
import CrdtSync.Lib.Edges

/-!
# Relative positions

A captured position is bound to an edge of an item, or to an end of the sequence, and resolves to
the count of live items before that edge. Edges keep their order as the sequence grows, so
positions do, and a mark covers what is live between its edges.
-/

namespace CrdtSync

open Lib Runs SeqValue
open Std (ExtTreeMap)

namespace FugueList

variable {V : Type} {l m : FugueList V}

/-- How many nodes are shown. -/
def len (l : FugueList V) : Nat := (l.nodes.toList.filter fun e => !e.2.movedAway).length

/-- Capture a position at `index` with the given gravity. -/
def relativePosition (l : FugueList V) (index : Nat) (side : Side) : RelativePosition :=
  let index := min index l.len
  match side with
  | .left =>
    match (checkedSub index 1).bind l.nodeAt with
    | some id => .after id
    | none => .start
  | .right =>
    match l.nodeAt index with
    | some id => .before id
    | none => .end

/-- The live items met before `id`, and whether it is live. -/
def liveRankIn (l : FugueList V) (id : Stamp) : List Span → Nat → Option (Nat × Bool)
  | [], _ => none
  | .node s :: spans, before =>
    if s = id then some (before, !l.hidden s)
    else l.liveRankIn id spans (if l.hidden s then before else before + 1)
  | .dead head len :: spans, before =>
    if covers head len id then some (before, false) else l.liveRankIn id spans before

def liveRank (l : FugueList V) (id : Stamp) : Option (Nat × Bool) := l.liveRankIn id l.treeOrder 0

def resolveBefore (l : FugueList V) (id : Stamp) : Nat :=
  match l.liveRank id with
  | some (before, _) => before
  | none => l.len

def resolveAfter (l : FugueList V) (id : Stamp) : Nat :=
  match l.liveRank id with
  | some (before, live) => before + live.toNat
  | none => 0

/-- The current live index of a captured position. -/
def resolvePosition (l : FugueList V) : RelativePosition → Nat
  | .start => 0
  | .end => l.len
  | .before id => l.resolveBefore id
  | .after id => l.resolveAfter id

/-- The index, unless the position is bound to an item the sequence does not have. -/
def resolvePositionPresent (l : FugueList V) : RelativePosition → Option Nat
  | .start => some 0
  | .end => some l.len
  | .before id => (l.liveRank id).map fun r => r.1
  | .after id => (l.liveRank id).map fun r => r.1 + r.2.toNat

/-! ### Ranks in the plain order -/

/-- The count of ids met before `id` that are live. -/
def rankIn (live : Stamp → Bool) (id : Stamp) : List Stamp → Nat → Option (Nat × Bool)
  | [], _ => none
  | s :: order, before =>
    if s = id then some (before, live s)
    else rankIn live id order (if live s then before + 1 else before)

theorem rankIn_skip {live : Stamp → Bool} {id : Stamp} {ids : List Stamp}
    (hDead : ∀ x ∈ ids, live x = false) (order : List Stamp) (before : Nat) :
    rankIn live id (ids ++ order) before =
      if id ∈ ids then some (before, false) else rankIn live id order before := by
  induction ids with
  | nil => simp
  | cons x ids ih =>
    obtain ⟨hx, hRest⟩ := List.forall_mem_cons.mp hDead
    rw [List.cons_append, rankIn, hx, if_neg Bool.false_ne_true, ih hRest]
    by_cases hEq : x = id
    · simp [hEq]
    · simp [hEq, Ne.symm hEq]

theorem liveRank_eq (h : l.WF) (id : Stamp) :
    l.liveRank id = rankIn (fun x => !l.hidden x) id l.sequence 0 := by
  have hRecords := h.refines.order_eq.2
  unfold liveRank sequence
  generalize 0 = before
  generalize l.treeOrder = spans at hRecords
  induction spans generalizing before with
  | nil => rfl
  | cons s spans ih =>
    obtain ⟨hs, hRest⟩ := List.forall_mem_cons.mp hRecords
    cases s with
    | node x =>
      rw [liveRankIn, List.flatMap_cons, Span.ids, List.singleton_append, rankIn]
      split
      · rfl
      · rw [ih _ hRest]
        cases l.hidden x <;> rfl
    | dead first len =>
      have hDead (x : Stamp) (hx : x ∈ (Span.dead first len).ids) : (!l.hidden x) = false := by
        rw [← h.refines.live_iff]
        exact h.refines.not_live_of_dead hs hx
      have hIn : covers first len id = true ↔ id ∈ (Span.dead first len).ids := by
        rw [Span.ids, List.mem_map]
        constructor
        · intro hCovers
          obtain ⟨-, -, hLe, hLt⟩ := covers_iff.mp hCovers
          have hPlace : id.lamport - first.lamport < len := by omega
          exact ⟨_, List.mem_range.mpr hPlace, (eq_runId_of_covers hCovers).symm⟩
        · rintro ⟨k, hk, rfl⟩
          exact covers_runId.mpr (List.mem_range.mp hk)
      rw [liveRankIn, List.flatMap_cons, rankIn_skip hDead, ih _ hRest]
      exact if_congr hIn rfl rfl

theorem rankIn_split (live : Stamp → Bool) (id : Stamp) {pre : List Stamp} (post : List Stamp)
    (hFirst : id ∉ pre) (before : Nat) :
    rankIn live id (pre ++ id :: post) before = some (before + pre.countP live, live id) := by
  induction pre generalizing before with
  | nil => simp [rankIn]
  | cons x pre ih =>
    rw [List.mem_cons, not_or] at hFirst
    rw [List.cons_append, rankIn, if_neg (Ne.symm hFirst.1), ih hFirst.2, List.countP_cons]
    cases live x
    · rfl
    · rw [if_pos rfl, if_pos rfl]
      congr 2
      omega

/-! ### Edges -/

/-- Shown where the sequence has it. -/
def shown (l : FugueList V) (id : Stamp) : Bool := !l.hidden id

end FugueList

def RelativePosition.edge : RelativePosition → Edge Stamp
  | .start => .start
  | .end => .end
  | .before id => .before id
  | .after id => .after id

namespace FugueList

variable {V : Type} {l m : FugueList V} {p q : RelativePosition}

/-- The live ids of the sequence left of a position. -/
def rank (l : FugueList V) (p : RelativePosition) : Nat := p.edge.rank l.shown l.sequence

def Bound (l : FugueList V) (p : RelativePosition) : Prop := p.edge.Bound l.sequence

theorem WF.liveRank_of_mem (h : l.WF) {id : Stamp} (hIn : id ∈ l.sequence) :
    l.liveRank id = some (l.rank (.before id), l.shown id) := by
  obtain ⟨post, hSplit, hOut⟩ := Edge.split_of_mem hIn
  have hRank := rankIn_split l.shown id post hOut 0
  rw [← hSplit, Nat.zero_add] at hRank
  exact (liveRank_eq h id).trans hRank

theorem rank_after (l : FugueList V) (id : Stamp) :
    l.rank (.after id) = l.rank (.before id) + (l.shown id).toNat := by
  unfold rank RelativePosition.edge Edge.rank Edge.left
  rw [List.countP_append, List.countP_singleton]
  cases l.shown id <;> rfl

theorem WF.resolvePosition_eq (h : l.WF) (hBound : l.Bound p) (hEnd : p ≠ .end) :
    l.resolvePosition p = l.rank p := by
  cases p with
  | start => rfl
  | «end» => exact absurd rfl hEnd
  | before id =>
    rw [resolvePosition, resolveBefore, h.liveRank_of_mem hBound]
  | after id =>
    rw [resolvePosition, resolveAfter, h.liveRank_of_mem hBound, rank_after]

theorem WF.resolvePositionPresent_eq (h : l.WF) (hBound : l.Bound p) :
    l.resolvePositionPresent p = some (l.resolvePosition p) := by
  cases p with
  | start => rfl
  | «end» => rfl
  | before id =>
    rw [resolvePositionPresent, resolvePosition, resolveBefore, h.liveRank_of_mem hBound]
    rfl
  | after id =>
    rw [resolvePositionPresent, resolvePosition, resolveAfter, h.liveRank_of_mem hBound]
    rfl

/-- The sequence shows no more than there are nodes. -/
theorem WF.liveOrder_length_le (h : l.WF) : l.liveOrder.length ≤ l.len := by
  have hNodup : (l.liveOrder.map seqKey).Nodup := by
    rw [h.liveOrder_eq]
    exact (h.sequence_nodup.filter _).map fun _ _ hKey => seqKey_inj.mp hKey
  have hNodes : l.liveOrder.map seqKey ⊆
      (l.nodes.toList.filter fun e => !e.2.movedAway).map Prod.fst := by
    intro key hKey
    obtain ⟨id, hId, rfl⟩ := List.mem_map.mp hKey
    rw [h.liveOrder_eq, List.mem_filter, hidden] at hId
    split at hId
    next n hNode =>
      exact List.mem_map.mpr
        ⟨(seqKey id, n), List.mem_filter.mpr ⟨mem_toList_iff.mpr hNode, hId.2⟩, rfl⟩
    next => simp at hId
  calc
    l.liveOrder.length = (l.liveOrder.map seqKey).length := (List.length_map _).symm
    _ ≤ ((l.nodes.toList.filter fun e => !e.2.movedAway).map Prod.fst).length :=
      (List.subperm_of_subset hNodup hNodes).length_le
    _ = l.len := List.length_map _

theorem WF.rank_le_len (h : l.WF) (hBound : l.Bound p) : l.rank p ≤ l.len :=
  calc
    l.rank p ≤ l.sequence.countP l.shown := (Edge.left_initial hBound).sublist.countP_le
    _ = l.liveOrder.length := by rw [h.liveOrder_eq, List.countP_eq_length_filter]; rfl
    _ ≤ l.len := h.liveOrder_length_le

theorem mem_sequence_of_nodeAt (h : l.WF) {index : Nat} {id : Stamp}
    (hAt : l.nodeAt index = some id) : id ∈ l.sequence ∧ l.shown id = true := by
  have hIn : id ∈ l.liveOrder := List.mem_of_getElem? hAt
  rw [h.liveOrder_eq] at hIn
  exact List.mem_filter.mp hIn

/-- A capture binds to an item of the sequence. -/
theorem WF.bound_relativePosition (h : l.WF) (index : Nat) (side : Side) :
    l.Bound (l.relativePosition index side) := by
  unfold relativePosition
  cases side with
  | left =>
    dsimp only
    split
    next id hAt =>
      obtain ⟨i, -, hNode⟩ := Option.bind_eq_some_iff.mp hAt
      exact (mem_sequence_of_nodeAt h hNode).1
    next => trivial
  | right =>
    dsimp only
    split
    next id hAt => exact (mem_sequence_of_nodeAt h hAt).1
    next => trivial

/-- The items before a live one are those the live order shows before it. -/
theorem WF.rank_before_of_nodeAt (h : l.WF) {index : Nat} {id : Stamp}
    (hAt : l.nodeAt index = some id) : l.rank (.before id) = index := by
  obtain ⟨hIn, hShown⟩ := mem_sequence_of_nodeAt h hAt
  have hLive : l.liveOrder = l.sequence.filter l.shown := h.liveOrder_eq
  obtain ⟨post, hSplit, -⟩ := Edge.split_of_mem hIn
  have hRank : l.liveOrder[l.rank (.before id)]? = some id := by
    rw [hLive, rank, RelativePosition.edge, Edge.rank, Edge.left, List.countP_eq_length_filter]
    generalize l.sequence.takeWhile (· ≠ id) = pre at hSplit ⊢
    rw [hSplit, List.filter_append, List.filter_cons_of_pos hShown,
      List.getElem?_append_right (le_refl _), Nat.sub_self]
    rfl
  have hNodup : l.liveOrder.Nodup := hLive ▸ h.sequence_nodup.filter _
  obtain ⟨hLt, -⟩ := List.getElem?_eq_some_iff.mp hRank
  exact (List.getElem?_inj hLt hNodup).mp (hRank.trans hAt.symm)

/-! ### Growth -/

theorem Keeps.bound (hKeeps : Keeps l m) (hl : l.WF) (hm : m.WF) (hBound : l.Bound p) : m.Bound p :=
  hBound.mono (hKeeps.sequence hl hm).subset

theorem nodes_eq_of_cells (hCells : ∀ x, l.cellAt x = m.cellAt x) : l.nodes = m.nodes := by
  refine ExtTreeMap.ext_getElem? fun key => ?_
  have hCell := hCells (seqStamp key)
  rw [cellAt, cellAt, seqKey_seqStamp] at hCell
  cases hl : l.nodes[key]? with
  | none =>
    cases hm : m.nodes[key]? with
    | none => rfl
    | some b =>
      rw [hl, hm] at hCell
      obtain ⟨a, -, ha⟩ := Option.map_eq_some_iff.mp hCell
      simp at ha
  | some a =>
    obtain ⟨value, anchor, away⟩ := a
    cases hm : m.nodes[key]? with
    | none =>
      rw [hl, hm] at hCell
      obtain ⟨b, -, hb⟩ := Option.map_eq_some_iff.mp hCell.symm
      simp at hb
    | some b =>
      obtain ⟨value', anchor', away'⟩ := b
      rw [hl, hm] at hCell
      simp only [Option.some.injEq, Cell.mk.injEq, Item.mk.injEq] at hCell
      obtain ⟨rfl, rfl, rfl⟩ := hCell
      rfl

theorem WF.resolvePosition_congr (hl : l.WF) (hm : m.WF) (hCells : ∀ x, l.cellAt x = m.cellAt x)
    (p : RelativePosition) : l.resolvePosition p = m.resolvePosition p := by
  have hRefines : Refines m l.plain := ⟨hm, fun x => by rw [hl.refines.cell, hCells]⟩
  have hSequence : l.sequence = m.sequence :=
    hl.refines.order_eq.1.symm.trans hRefines.order_eq.1
  have hHidden (x : Stamp) : (!l.hidden x) = !m.hidden x :=
    hl.refines.live_iff.symm.trans hRefines.live_iff
  have hRank (id : Stamp) : l.liveRank id = m.liveRank id := by
    rw [liveRank_eq hl, liveRank_eq hm, hSequence]
    simp only [hHidden]
  have hLen : l.len = m.len := by rw [len, len, nodes_eq_of_cells hCells]
  cases p with
  | start => rfl
  | «end» => exact hLen
  | before id => rw [resolvePosition, resolveBefore, hRank, hLen]; rfl
  | after id => rw [resolvePosition, resolveAfter, hRank]; rfl

/-- Of two positions the one that comes first does so ever after. -/
theorem Keeps.resolvePosition_le (hKeeps : Keeps l m) (hl : l.WF) (hm : m.WF) (hp : l.Bound p)
    (hq : l.Bound q) (h : l.resolvePosition p < l.resolvePosition q) :
    m.resolvePosition p ≤ m.resolvePosition q := by
  have hpm := hKeeps.bound hl hm hp
  have hqm := hKeeps.bound hl hm hq
  by_cases hqEnd : q = .end
  · subst hqEnd
    by_cases hpEnd : p = .end
    · rw [hpEnd]
    · rw [hm.resolvePosition_eq hpm hpEnd]
      exact hm.rank_le_len hpm
  · have hpEnd : p ≠ .end := by
      rintro rfl
      rw [hl.resolvePosition_eq hq hqEnd] at h
      exact absurd h (hl.rank_le_len hq).not_gt
    rw [hl.resolvePosition_eq hp hpEnd, hl.resolvePosition_eq hq hqEnd] at h
    rw [hm.resolvePosition_eq hpm hpEnd, hm.resolvePosition_eq hqm hqEnd]
    exact Edge.rank_le_of_sublist (hKeeps.sequence hl hm) hm.sequence_nodup hp hq h

theorem WF.resolvePosition_before (h : l.WF) {id : Stamp} (hIn : id ∈ l.sequence) :
    l.resolvePosition (.before id) = (l.sequence.takeWhile (· ≠ id)).countP l.shown :=
  h.resolvePosition_eq (p := .before id) hIn nofun

theorem WF.resolvePosition_after (h : l.WF) {id : Stamp} (hIn : id ∈ l.sequence) :
    l.resolvePosition (.after id) =
      (l.sequence.takeWhile (· ≠ id)).countP l.shown + (l.shown id).toNat := by
  rw [h.resolvePosition_eq (p := .after id) hIn nofun, rank_after]
  rfl

theorem WF.between_iff (h : l.WF) (hp : l.Bound p) (hq : l.Bound q) {index : Nat} {x : Stamp}
    (hAt : l.nodeAt index = some x) :
    l.resolvePosition p ≤ index ∧ index < l.resolvePosition q ↔
      Edge.Between l.sequence p.edge q.edge x := by
  obtain ⟨hIn, hShown⟩ := mem_sequence_of_nodeAt h hAt
  have hIndex := h.rank_before_of_nodeAt hAt
  have hBefore {r : RelativePosition} (hr : l.Bound r) :
      index < l.resolvePosition r ↔ x ∈ r.edge.left l.sequence := by
    by_cases hEnd : r = .end
    · subst hEnd
      refine iff_of_true ?_ hIn
      obtain ⟨hLt, -⟩ := List.getElem?_eq_some_iff.mp hAt
      exact hLt.trans_le h.liveOrder_length_le
    · rw [h.resolvePosition_eq hr hEnd, ← hIndex]
      exact Edge.rank_before_lt_iff hIn hShown hr
  rw [← not_lt, hBefore hp, hBefore hq, Edge.Between]

end FugueList

namespace Content

/-- The live index a position resolves to in a sequence, if both are there. -/
def resolveIndex (c : Content) (seq : ElementId) (pos : RelativePosition) : Option Nat :=
  match c.texts[seq]? with
  | some t => t.resolvePositionPresent pos
  | none =>
    match c.lists[seq]? with
    | some l => l.resolvePositionPresent pos
    | none => none

/-- Whether the span of the mark covers an index of the sequence. -/
def covers (c : Content) (e : RangedEntry) (seq : ElementId) (index : Nat) : Bool :=
  if e.start.seq ≠ seq ∨ e.stop.seq ≠ seq then false
  else
    match c.resolveIndex seq e.start.pos, c.resolveIndex seq e.stop.pos with
    | some start, some stop => decide (start ≤ index ∧ index < stop)
    | _, _ => false

/-- The sequence `resolveIndex` reads. -/
def Shows (c : Content) (seq : ElementId) (l : FugueList Element) : Prop :=
  c.texts[seq]? = some l ∨ c.texts[seq]? = none ∧ c.lists[seq]? = some l

variable {c : Content} {seq : ElementId} {l : FugueList Element}

theorem Shows.resolveIndex_eq (h : c.Shows seq l) (pos : RelativePosition) :
    c.resolveIndex seq pos = l.resolvePositionPresent pos := by
  rw [resolveIndex]
  rcases h with hText | ⟨hNone, hList⟩
  · rw [hText]
  · rw [hNone, hList]

theorem Shows.covers_iff (h : c.Shows seq l) (hWF : l.WF) {e : RangedEntry}
    (hStart : e.start.seq = seq) (hStop : e.stop.seq = seq) (hp : l.Bound e.start.pos)
    (hq : l.Bound e.stop.pos) {index : Nat} {x : Stamp} (hAt : l.nodeAt index = some x) :
    c.covers e seq index = true ↔
      Edge.Between l.sequence e.start.pos.edge e.stop.pos.edge x := by
  rw [covers, if_neg (by simp [hStart, hStop]), h.resolveIndex_eq, h.resolveIndex_eq,
    hWF.resolvePositionPresent_eq hp, hWF.resolvePositionPresent_eq hq]
  exact decide_eq_true_iff.trans (hWF.between_iff hp hq hAt)

end Content

section Runs

open FugueList

variable [IdBytes]

/-- A captured position resolves to the live items before its edge, on any list of the same cells;
two positions never trade places; and a mark covers the live items between its edges, which for the
items there were does not change. -/
theorem relative_positions {l : FugueList Element} (hl : l.WF) {changes : List (Change Element)}
    (hAgrees : l.AgreesAll changes) {m : FugueList Element}
    (hm : m = changes.foldl applyChange l) :
    (∀ index side, l.Bound (l.relativePosition index side)) ∧
    (∀ p, l.Bound p → m.Bound p) ∧
    (∀ id, l.Bound (.before id) →
      m.resolvePosition (.before id) = (m.sequence.takeWhile (· ≠ id)).countP m.shown) ∧
    (∀ id, l.Bound (.after id) → m.resolvePosition (.after id) =
      (m.sequence.takeWhile (· ≠ id)).countP m.shown + (m.shown id).toNat) ∧
    (∀ other : FugueList Element, other.WF → (∀ x, other.cellAt x = m.cellAt x) →
      ∀ p, other.resolvePosition p = m.resolvePosition p) ∧
    (∀ p q, l.Bound p → l.Bound q → l.resolvePosition p < l.resolvePosition q →
      m.resolvePosition p ≤ m.resolvePosition q) ∧
    ∀ (c : Content) (seq : ElementId) (e : RangedEntry), c.Shows seq m → e.start.seq = seq →
      e.stop.seq = seq → l.Bound e.start.pos → l.Bound e.stop.pos →
      (∀ index x, m.nodeAt index = some x → (c.covers e seq index = true ↔
        Edge.Between m.sequence e.start.pos.edge e.stop.pos.edge x)) ∧
      ∀ x ∈ l.sequence, (Edge.Between m.sequence e.start.pos.edge e.stop.pos.edge x ↔
        Edge.Between l.sequence e.start.pos.edge e.stop.pos.edge x) := by
  obtain ⟨hWF, hKeeps⟩ := applyChanges_keeps hl hAgrees
  rw [← hm] at hWF hKeeps
  have hBound {p : RelativePosition} (hp : l.Bound p) : m.Bound p := hKeeps.bound hl hWF hp
  have hSub := hKeeps.sequence hl hWF
  refine ⟨fun index side => hl.bound_relativePosition index side, fun p => hBound,
    fun id h => hWF.resolvePosition_before (hBound h),
    fun id h => hWF.resolvePosition_after (hBound h),
    fun other hOther hCells p => hOther.resolvePosition_congr hWF hCells p,
    fun p q hp hq h => hKeeps.resolvePosition_le hl hWF hp hq h, ?_⟩
  intro c seq e hShows hStart hStop hp hq
  refine ⟨fun index x hAt => hShows.covers_iff hWF hStart hStop (hBound hp) (hBound hq) hAt,
    fun x hx => ?_⟩
  rw [Edge.Between, Edge.Between, Edge.mem_left_of_sublist hSub hWF.sequence_nodup hp hx,
    Edge.mem_left_of_sublist hSub hWF.sequence_nodup hq hx]

end Runs

section Examples

open FugueList

local instance positionIdBytes : IdBytes := IdBytes.spelled

/-- Two items typed one after the other. -/
def typing : List (Change Element) :=
  [.insert 0 (.scalar (.int 1)) ⟨1, ⟨1⟩, 0⟩, .insert 1 (.scalar (.int 1)) ⟨2, ⟨1⟩, 0⟩]

def typedPair : FugueList Element := typing.foldl applyChange (FugueList.new (.fromBytes 0))

/-- A claim on a held id at a smaller anchor re-seats it, and the positions beside it with it. -/
theorem positions_swap_on_reseat :
    let p := typedPair.relativePosition 1 .left
    let q := typedPair.relativePosition 2 .left
    let m := typedPair.applyChange (.insertAt ⟨2, ⟨1⟩, 0⟩ (.scalar (.int 1)) ⟨none, .left⟩)
    typedPair.resolvePosition p < typedPair.resolvePosition q ∧
      m.resolvePosition q < m.resolvePosition p := by
  decide +kernel

theorem typedPair_wf : typedPair.WF :=
  have hAgrees : (FugueList.new (.fromBytes 0)).AgreesAll typing := ⟨trivial, trivial, trivial⟩
  (applyChanges_keeps (wf_new (.fromBytes 0)) hAgrees).1

/-- One more item typed between the two. -/
theorem relative_positions_typedPair :
    let typed : Change Element := .insert 1 (.scalar (.int 1)) ⟨3, ⟨2⟩, 0⟩
    let m := typedPair.applyChange typed
    (∀ p q, typedPair.Bound p → typedPair.Bound q →
      typedPair.resolvePosition p < typedPair.resolvePosition q →
      m.resolvePosition p ≤ m.resolvePosition q) ∧ m.resolvePosition (.after ⟨2, ⟨1⟩, 0⟩) = 3 :=
  ⟨(@relative_positions _ _ typedPair_wf [.insert 1 (.scalar (.int 1)) ⟨3, ⟨2⟩, 0⟩]
    ⟨trivial, trivial⟩ _ rfl).2.2.2.2.2.1, by decide +kernel⟩

end Examples

end CrdtSync
