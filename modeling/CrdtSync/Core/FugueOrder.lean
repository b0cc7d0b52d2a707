import CrdtSync.Core.FugueMerge

/-!
# The order of a run-compressed sequence

The walk works in records: nodes and the pieces a run is cut into wherever
another record attaches to it. Each record walks as the chain of its ids does in
the plain tree, so the two orders agree.
-/

namespace CrdtSync

open Lib Runs
open Std (ExtTreeMap)

namespace FugueList

variable {V : Type} {l : FugueList V}

theorem mem_pieces {head : Stamp} {start : Nat} {ends : List Nat}
    (hSorted : (start :: ends).Pairwise (· < ·)) {anchor a : Anchor} {s : Span} :
    (a, s) ∈ pieces head anchor start ends ↔
      ∃ x y, x ∈ start :: ends ∧ y ∈ ends ∧ x < y ∧ (∀ z ∈ ends, z ≤ x ∨ y ≤ z) ∧
        s = .dead (runId head x) (y - x) ∧
        a = if x = start then anchor else ⟨some (runId head (x - 1)), .right⟩ := by
  induction ends generalizing start anchor with
  | nil => simp [pieces]
  | cons stop ends ih =>
    obtain ⟨hFirst, hRest⟩ := List.pairwise_cons.mp hSorted
    have hStop := hFirst stop (by simp)
    obtain ⟨hLater, -⟩ := List.pairwise_cons.mp hRest
    rw [pieces, List.mem_cons, ih hRest]
    constructor
    · rintro (hEq | ⟨x, y, hx, hy, hxy, hGap, hs, ha⟩)
      · obtain ⟨rfl, rfl⟩ := Prod.mk.inj hEq
        refine ⟨start, stop, by simp, by simp, hStop, ?_, rfl, by simp⟩
        intro z hz
        rcases List.mem_cons.mp hz with rfl | hz
        · exact .inr le_rfl
        · exact .inr (hLater z hz).le
      · have hxStart : x ≠ start := by
          have hxStop : stop ≤ x := by
            rcases List.mem_cons.mp hx with rfl | hx
            · exact le_rfl
            · exact (hLater x hx).le
          omega
        refine ⟨x, y, List.mem_cons_of_mem start hx, List.mem_cons_of_mem stop hy, hxy, ?_, hs, ?_⟩
        · intro z hz
          rcases List.mem_cons.mp hz with rfl | hz
          · rcases List.mem_cons.mp hx with rfl | hx
            · exact .inl le_rfl
            · exact .inl (hLater x hx).le
          · exact hGap z hz
        · rw [ha, if_neg hxStart]
          split
          · rename_i hEq
            rw [hEq]
          · rfl
    · rintro ⟨x, y, hx, hy, hxy, hGap, hs, ha⟩
      rcases List.mem_cons.mp hx with rfl | hx
      · left
        have hyStop : y = stop := by
          rcases List.mem_cons.mp hy with rfl | hy
          · rfl
          · have hBetween := hGap stop (by simp)
            have hAfter := hLater y hy
            omega
        rw [hs, ha, if_pos rfl, hyStop]
      · right
        have hxStart : x ≠ start := by
          have hxAfter := hFirst x hx
          omega
        have hy' : y ∈ ends := by
          rcases List.mem_cons.mp hy with rfl | hy
          · rcases List.mem_cons.mp hx with rfl | hx
            · omega
            · have hAfter := hLater x hx
              omega
          · exact hy
        refine ⟨x, y, hx, hy', hxy, fun z hz => hGap z (List.mem_cons_of_mem stop hz), hs, ?_⟩
        rw [ha, if_neg hxStart]
        split
        · rename_i hEq
          rw [hEq]
        · rfl

theorem pieces_heads_nodup {head : Stamp} {start : Nat} {ends : List Nat}
    (hSorted : (start :: ends).Pairwise (· < ·)) (anchor : Anchor) :
    ((pieces head anchor start ends).map fun r => r.2.head).Nodup := by
  induction ends generalizing start anchor with
  | nil => simp [pieces]
  | cons stop ends ih =>
    obtain ⟨hFirst, hRest⟩ := List.pairwise_cons.mp hSorted
    rw [pieces, List.map_cons, List.nodup_cons]
    refine ⟨?_, ih hRest _⟩
    intro hIn
    obtain ⟨⟨a, s⟩, hMem, hHead⟩ := List.mem_map.mp hIn
    obtain ⟨x, y, hx, -, -, -, rfl, -⟩ := (mem_pieces hRest).mp hMem
    have hSame : x = start := runId_inj.mp hHead
    have hAfter := hFirst x hx
    omega

theorem mem_anchors {a : Anchor} : a ∈ l.anchors ↔
    (∃ id n, l.nodes[seqKey id]? = some n ∧ n.anchor = a) ∨
      ∃ head run, l.dead[seqKey head]? = some run ∧ run.anchor = a := by
  simp only [anchors, List.mem_append, List.mem_map, Prod.exists, mem_toList_iff]
  constructor
  · rintro (⟨key, n, h⟩ | ⟨key, run, h⟩)
    · exact .inl ⟨seqStamp key, n, h⟩
    · exact .inr ⟨seqStamp key, run, h⟩
  · rintro (⟨id, n, h⟩ | ⟨head, run, h⟩)
    · exact .inl ⟨seqKey id, n, h⟩
    · exact .inr ⟨seqKey head, run, h⟩

theorem WF.cutBy_eq_some (h : l.WF) {a : Anchor} {head : Stamp} {cut : Nat} :
    l.cutBy a = some (seqKey head, cut) ↔ ∃ i run, a.parent = some (runId head i) ∧
      l.dead[seqKey head]? = some run ∧ 0 < cut ∧ cut < run.len ∧
        cut = cutPlace a.side i := by
  unfold cutBy
  simp only [Option.bind_eq_bind, Option.bind_eq_some_iff, Prod.exists]
  constructor
  · rintro ⟨parent, hParent, head', run, hRun, hCut⟩
    split at hCut
    · rename_i hBounds
      simp only [Option.some.injEq, Prod.mk.injEq, seqKey_inj] at hCut
      obtain ⟨rfl, rfl⟩ := hCut
      obtain ⟨hEntry, hCovers⟩ := h.runs.deadRun_eq_some.mp hRun
      exact ⟨_, run, hParent.trans (congrArg some (eq_runId_of_covers hCovers)), hEntry, hBounds.1,
        hBounds.2, rfl⟩
    · cases hCut
  · rintro ⟨i, run, hParent, hEntry, hPos, hLt, hCut⟩
    have hi : i < run.len := by
      cases hSide : a.side <;> rw [hSide, cutPlace] at hCut <;> omega
    have hRun := h.runs.deadRun_eq_some.mpr ⟨hEntry, covers_runId.mpr hi⟩
    have hPlace : (runId head i).lamport - head.lamport = i := by
      simp only [runId]
      omega
    refine ⟨_, hParent, head, run, hRun, ?_⟩
    rw [hPlace, ← hCut, if_pos ⟨hPos, hLt⟩]

theorem mem_cuts {key : SeqKey} {cut : Nat} :
    cut ∈ l.cuts key ↔ ∃ a ∈ l.anchors, l.cutBy a = some (key, cut) := by
  unfold cuts
  rw [(List.perm_insertionSort _ _).mem_iff, List.mem_dedup]
  simp only [List.mem_filterMap, Prod.exists]
  constructor
  · rintro ⟨k, c, ⟨a, ha, hCut⟩, hSome⟩
    split at hSome
    · rename_i hk
      obtain rfl := Option.some.inj hSome
      exact ⟨a, ha, hk ▸ hCut⟩
    · cases hSome
  · rintro ⟨a, ha, hCut⟩
    exact ⟨key, cut, ⟨a, ha, hCut⟩, by simp⟩

def ends (l : FugueList V) (head : Stamp) (run : DeadRun) : List Nat :=
  l.cuts (seqKey head) ++ [run.len]

theorem WF.ends_sorted (h : l.WF) (head : Stamp) {run : DeadRun}
    (hRun : l.dead[seqKey head]? = some run) : (0 :: l.ends head run).Pairwise (· < ·) := by
  have hCut : ∀ cut ∈ l.cuts (seqKey head), 0 < cut ∧ cut < run.len := by
    intro cut hIn
    obtain ⟨a, -, hCut⟩ := mem_cuts.mp hIn
    obtain ⟨i, run', -, hRun', hPos, hLt, -⟩ := h.cutBy_eq_some.mp hCut
    obtain rfl := Option.some.inj (hRun'.symm.trans hRun)
    exact ⟨hPos, hLt⟩
  have hSorted : (l.cuts (seqKey head)).Pairwise (· < ·) := by
    unfold cuts
    refine (List.pairwise_insertionSort (· ≤ ·) _).imp₂ ?_
      ((List.perm_insertionSort _ _).nodup_iff.mpr (List.nodup_dedup _))
    intro a b hLe hNe
    omega
  unfold ends
  refine List.pairwise_cons.mpr ⟨?_, List.pairwise_append.mpr ⟨hSorted, by simp, ?_⟩⟩
  · intro e he
    rcases List.mem_append.mp he with he | he
    · exact (hCut e he).1
    · rw [List.mem_singleton.mp he]
      exact h.runs.pos head run hRun
  · intro cut hIn e he
    rw [List.mem_singleton.mp he]
    exact (hCut cut hIn).2

structure Piece (l : FugueList V) (head : Stamp) (run : DeadRun) (x y : Nat) : Prop where
  entry : l.dead[seqKey head]? = some run
  starts : x ∈ 0 :: l.ends head run
  stops : y ∈ l.ends head run
  lt : x < y
  whole : ∀ z ∈ l.ends head run, z ≤ x ∨ y ≤ z

theorem WF.le_len (h : l.WF) {head : Stamp} {run : DeadRun}
    (hRun : l.dead[seqKey head]? = some run) {e : Nat} (he : e ∈ l.ends head run) : e ≤ run.len := by
  have hSorted := (List.pairwise_cons.mp (h.ends_sorted _ hRun)).2
  unfold ends at he hSorted
  rcases List.mem_append.mp he with he | he
  · exact ((List.pairwise_append.mp hSorted).2.2 e he run.len (by simp)).le
  · exact (List.mem_singleton.mp he).le

theorem Piece.le_len (h : l.WF) {head : Stamp} {run : DeadRun} {x y : Nat}
    (hPiece : Piece l head run x y) : y ≤ run.len :=
  h.le_len hPiece.entry hPiece.stops

theorem Piece.eq_of_start {head : Stamp} {run : DeadRun} {x y y' : Nat} (h : Piece l head run x y)
    (h' : Piece l head run x y') : y = y' := by
  have hy := h.whole y' h'.stops
  have hy' := h'.whole y h.stops
  have hlt := h.lt
  have hlt' := h'.lt
  omega

theorem Piece.eq_of_stop {head : Stamp} {run : DeadRun} {x x' y : Nat} (h : Piece l head run x y)
    (h' : Piece l head run x' y) : x = x' := by
  have hStart : ∀ {x x'}, Piece l head run x y → Piece l head run x' y → x' ≤ x := by
    intro x x' h h'
    rcases List.mem_cons.mp h'.starts with rfl | hx'
    · exact Nat.zero_le x
    · exact (h.whole x' hx').resolve_right (by have := h'.lt; omega)
  exact le_antisymm (hStart h' h) (hStart h h')

theorem chainAnchor_runId {head : Stamp} {anchor : Anchor} {i : Nat} :
    chainAnchor head anchor (runId head i) =
      if i = 0 then anchor else ⟨some (runId head (i - 1)), .right⟩ := by
  unfold chainAnchor
  rcases Nat.eq_zero_or_pos i with rfl | hi
  · simp [runId_zero]
  · have hNe : head ≠ runId head i := by
      rw [← runId_zero head, runId_add, ne_eq, runId_inj]
      omega
    rw [if_neg hNe, if_neg hi.ne']
    simp only [runId, Anchor.mk.injEq, Option.some.injEq, Stamp.mk.injEq, and_true]
    omega

theorem mem_records_node {a : Anchor} {id : Stamp} : (a, .node id) ∈ l.records ↔
    ∃ n, l.nodes[seqKey id]? = some n ∧ n.anchor = a := by
  unfold records
  have hPieces : ∀ head start anchor (ends : List Nat),
      (a, Span.node id) ∉ pieces head anchor start ends := by
    intro head start anchor ends
    induction ends generalizing start anchor with
    | nil => simp [pieces]
    | cons stop ends ih => simp [pieces, ih]
  rw [List.mem_append, or_iff_left]
  · simp only [List.mem_map, Prod.exists, mem_toList_iff, Prod.mk.injEq, Span.node.injEq]
    constructor
    · rintro ⟨key, n, hNode, rfl, rfl⟩
      exact ⟨n, hNode, rfl⟩
    · rintro ⟨n, hNode, rfl⟩
      exact ⟨seqKey id, n, hNode, rfl, rfl⟩
  · rw [List.mem_flatMap]
    rintro ⟨⟨key, run⟩, -, hIn⟩
    exact hPieces _ _ _ _ hIn

theorem WF.mem_records_dead (h : l.WF) {a : Anchor} {first : Stamp} {len : Nat} :
    (a, .dead first len) ∈ l.records ↔ ∃ head run x y, Piece l head run x y ∧
      first = runId head x ∧ len = y - x ∧ a = chainAnchor head run.anchor (runId head x) := by
  unfold records
  rw [List.mem_append, or_iff_right (by simp), List.mem_flatMap]
  simp only [Prod.exists, mem_toList_iff]
  constructor
  · rintro ⟨key, run, hRun, hIn⟩
    obtain ⟨x, y, hx, hy, hxy, hWhole, hs, ha⟩ :=
      (mem_pieces (h.ends_sorted (seqStamp key) hRun)).mp hIn
    obtain ⟨rfl, rfl⟩ := Span.dead.inj hs
    exact ⟨seqStamp key, run, x, y, ⟨hRun, hx, hy, hxy, hWhole⟩, rfl, rfl,
      ha.trans chainAnchor_runId.symm⟩
  · rintro ⟨head, run, x, y, hPiece, rfl, rfl, rfl⟩
    refine ⟨seqKey head, run, hPiece.entry, ?_⟩
    exact (mem_pieces (h.ends_sorted _ hPiece.entry)).mpr ⟨x, y, hPiece.starts, hPiece.stops,
      hPiece.lt, hPiece.whole, rfl, chainAnchor_runId⟩

/-- A span the walk works in. -/
def IsRecord (l : FugueList V) (s : Span) : Prop := ∃ a, (a, s) ∈ l.records

theorem isRecord_node {id : Stamp} : l.IsRecord (.node id) ↔ ∃ n, l.nodes[seqKey id]? = some n := by
  unfold IsRecord
  simp only [mem_records_node]
  constructor
  · rintro ⟨_, n, hNode, -⟩
    exact ⟨n, hNode⟩
  · rintro ⟨n, hNode⟩
    exact ⟨n.anchor, n, hNode, rfl⟩

theorem WF.isRecord_dead (h : l.WF) {first : Stamp} {len : Nat} :
    l.IsRecord (.dead first len) ↔ ∃ head run x y, Piece l head run x y ∧
      first = runId head x ∧ len = y - x := by
  unfold IsRecord
  simp only [h.mem_records_dead]
  constructor
  · rintro ⟨_, head, run, x, y, hPiece, hFirst, hLen, -⟩
    exact ⟨head, run, x, y, hPiece, hFirst, hLen⟩
  · rintro ⟨head, run, x, y, hPiece, hFirst, hLen⟩
    exact ⟨_, head, run, x, y, hPiece, hFirst, hLen, rfl⟩

theorem Piece.holds (h : l.WF) {head : Stamp} {run : DeadRun} {x y i : Nat}
    (hPiece : Piece l head run x y) (hi : i < y) : Holds l.dead head run (runId head i) :=
  ⟨hPiece.entry, covers_runId.mpr (by have := hPiece.le_len h; omega)⟩

theorem WF.anchorOf_of_mem_records (h : l.WF) {a : Anchor} {s : Span} (hs : (a, s) ∈ l.records) :
    l.anchorOf s.head = some a := by
  cases s with
  | node id =>
    obtain ⟨n, hNode, rfl⟩ := mem_records_node.mp hs
    rw [Span.head, anchorOf, hNode]
  | dead first len =>
    obtain ⟨head, run, x, y, hPiece, rfl, rfl, rfl⟩ := h.mem_records_dead.mp hs
    have hDead := h.runs.deadAnchorOf_of_holds (hPiece.holds h hPiece.lt)
    rw [Span.head, anchorOf_eq]
    cases hNode : l.nodes[seqKey (runId head x)]? with
    | some n =>
      rw [h.apart _ n hNode] at hDead
      cases hDead
    | none =>
      rw [cellAt_of_no_node hNode, hDead]
      rfl

theorem WF.not_holds_node (h : l.WF) {id head : Stamp} {run : DeadRun} {n : Node V}
    (hNode : l.nodes[seqKey id]? = some n) : ¬Holds l.dead head run id :=
  h.runs.deadAnchorOf_eq_none.mp (h.apart id n hNode) head run

theorem WF.record_ext (h : l.WF) {s t : Span} (hs : l.IsRecord s) (ht : l.IsRecord t)
    (hEnd : s.head = t.head ∨ s.last = t.last) : s = t := by
  have hMixed : ∀ {id first : Stamp} {len : Nat}, l.IsRecord (.node id) →
      l.IsRecord (.dead first len) → id ≠ first ∧ id ≠ runId first (len - 1) := by
    intro id first len hn hd
    obtain ⟨n, hNode⟩ := isRecord_node.mp hn
    obtain ⟨head, run, x, y, hPiece, rfl, rfl⟩ := h.isRecord_dead.mp hd
    have hlt := hPiece.lt
    constructor
    · rintro rfl
      exact h.not_holds_node hNode (hPiece.holds h hlt)
    · rintro rfl
      rw [runId_add] at hNode
      exact h.not_holds_node hNode (hPiece.holds h (by omega))
  cases s with
  | node id =>
    cases t with
    | node id' => exact congrArg Span.node (or_self_iff.mp hEnd)
    | dead first len => exact absurd hEnd (not_or.mpr (hMixed hs ht))
  | dead first len =>
    cases t with
    | node id' =>
      obtain ⟨hHead, hLast⟩ := hMixed ht hs
      exact absurd hEnd (not_or.mpr ⟨fun hEq => hHead hEq.symm, fun hEq => hLast hEq.symm⟩)
    | dead first' len' =>
      obtain ⟨head, run, x, y, hPiece, rfl, rfl⟩ := h.isRecord_dead.mp hs
      obtain ⟨head', run', x', y', hPiece', rfl, rfl⟩ := h.isRecord_dead.mp ht
      have hlt := hPiece.lt
      have hlt' := hPiece'.lt
      -- The shared end is in one run, so it is at one place of it.
      have hRun : ∀ {i j : Nat}, i < y → j < y' → runId head i = runId head' j →
          head = head' ∧ run = run' ∧ i = j := by
        intro i j hi hj hEq
        have hSame := h.runs.apart _ _ _ _ _ (hPiece.holds h hi) (hEq ▸ hPiece'.holds h hj)
        subst hSame
        exact ⟨rfl, Option.some.inj (hPiece.entry.symm.trans hPiece'.entry), runId_inj.mp hEq⟩
      rcases hEnd with hEnd | hEnd
      · obtain ⟨rfl, rfl, rfl⟩ := hRun hlt hlt' hEnd
        rw [hPiece.eq_of_start hPiece']
      · simp only [Span.last, runId_add] at hEnd
        obtain ⟨rfl, rfl, hStop⟩ := hRun (by omega) (by omega) hEnd
        obtain rfl : y = y' := by omega
        rw [hPiece.eq_of_stop hPiece']

theorem WF.anchorOf_cases (h : l.WF) {id : Stamp} {a : Anchor} (ha : l.anchorOf id = some a) :
    a ∈ l.anchors ∨ ∃ head run i, l.dead[seqKey head]? = some run ∧ i + 1 < run.len ∧
      id = runId head (i + 1) ∧ a = ⟨some (runId head i), .right⟩ := by
  unfold anchorOf at ha
  cases hNode : l.nodes[seqKey id]? with
  | some n =>
    rw [hNode] at ha
    exact .inl (mem_anchors.mpr (.inl ⟨id, n, hNode, Option.some.inj ha⟩))
  | none =>
    rw [hNode] at ha
    obtain ⟨head, run, ⟨hRun, hCovers⟩, rfl⟩ := h.runs.deadAnchorOf_eq_some.mp ha
    have hId := eq_runId_of_covers hCovers
    obtain ⟨-, -, hLe, hLt⟩ := covers_iff.mp hCovers
    rcases Nat.eq_zero_or_pos (id.lamport - head.lamport) with hZero | hPos
    · rw [hZero, runId_zero] at hId
      subst hId
      exact .inl (mem_anchors.mpr (.inr ⟨id, run, hRun, by simp [chainAnchor]⟩))
    · refine .inr ⟨head, run, id.lamport - head.lamport - 1, hRun, by omega, ?_, ?_⟩
      · rw [Nat.sub_add_cancel hPos]
        exact hId
      · rw [hId, chainAnchor_runId, if_neg hPos.ne', ← hId]

theorem exists_piece_around {start i : Nat} {ends : List Nat}
    (hSorted : (start :: ends).Pairwise (· < ·)) (hStart : start ≤ i) (hEnd : ∃ e ∈ ends, i < e) :
    ∃ x y, x ∈ start :: ends ∧ y ∈ ends ∧ x ≤ i ∧ i < y ∧ ∀ z ∈ ends, z ≤ x ∨ y ≤ z := by
  induction ends generalizing start with
  | nil => simp at hEnd
  | cons stop ends ih =>
    obtain ⟨-, hRest⟩ := List.pairwise_cons.mp hSorted
    obtain ⟨hLater, -⟩ := List.pairwise_cons.mp hRest
    by_cases hStop : i < stop
    · refine ⟨start, stop, by simp, by simp, hStart, hStop, ?_⟩
      intro z hz
      rcases List.mem_cons.mp hz with rfl | hz
      · exact .inr le_rfl
      · exact .inr (hLater z hz).le
    · obtain ⟨x, y, hx, hy, hxi, hiy, hWhole⟩ := ih hRest (by omega) (by
        obtain ⟨e, he, hie⟩ := hEnd
        rcases List.mem_cons.mp he with rfl | he
        · omega
        · exact ⟨e, he, hie⟩)
      refine ⟨x, y, List.mem_cons_of_mem start hx, List.mem_cons_of_mem stop hy, hxi, hiy, ?_⟩
      intro z hz
      rcases List.mem_cons.mp hz with rfl | hz
      · rcases List.mem_cons.mp hx with rfl | hx
        · exact .inl le_rfl
        · exact .inl (hLater x hx).le
      · exact hWhole z hz

theorem WF.exists_record (h : l.WF) {id : Stamp} {a : Anchor} (ha : l.anchorOf id = some a) :
    (∃ s, (a, s) ∈ l.records ∧ s.head = id) ∨
      ∃ first len j, l.IsRecord (.dead first len) ∧ j + 1 < len ∧ id = runId first (j + 1) ∧
        a = ⟨some (runId first j), .right⟩ := by
  unfold anchorOf at ha
  cases hNode : l.nodes[seqKey id]? with
  | some n =>
    rw [hNode] at ha
    exact .inl ⟨.node id, mem_records_node.mpr ⟨n, hNode, Option.some.inj ha⟩, rfl⟩
  | none =>
    rw [hNode] at ha
    obtain ⟨head, run, ⟨hRun, hCovers⟩, rfl⟩ := h.runs.deadAnchorOf_eq_some.mp ha
    have hId := eq_runId_of_covers hCovers
    obtain ⟨-, -, hLe, hLt⟩ := covers_iff.mp hCovers
    obtain ⟨i, hi⟩ : ∃ i, i = id.lamport - head.lamport := ⟨_, rfl⟩
    rw [← hi] at hId
    obtain ⟨x, y, hx, hy, hxi, hiy, hWhole⟩ := exists_piece_around (h.ends_sorted _ hRun)
      (Nat.zero_le i) ⟨run.len, by simp [ends], by omega⟩
    have hPiece : Piece l head run x y := ⟨hRun, hx, hy, by omega, hWhole⟩
    subst hId
    rcases Nat.eq_or_lt_of_le hxi with rfl | hxi
    · exact .inl ⟨_, h.mem_records_dead.mpr ⟨head, run, x, y, hPiece, rfl, rfl, rfl⟩, rfl⟩
    · refine .inr ⟨runId head x, y - x, i - x - 1,
        h.isRecord_dead.mpr ⟨head, run, x, y, hPiece, rfl, rfl⟩, by omega, ?_, ?_⟩
      · rw [runId_add, show x + (i - x - 1 + 1) = i by omega]
      · rw [chainAnchor_runId, if_neg (by omega), runId_add, show x + (i - x - 1) = i - 1 by omega]

/-- Inside a piece nothing hangs but the chain itself. -/
theorem WF.inside_piece (h : l.WF) {first : Stamp} {len j : Nat}
    (hs : l.IsRecord (.dead first len)) (hj : j + 1 < len) (id : Stamp) :
    (l.anchorOf id = some ⟨some (runId first j), .right⟩ → id = runId first (j + 1)) ∧
      l.anchorOf id ≠ some ⟨some (runId first (j + 1)), .left⟩ := by
  obtain ⟨head, run, x, y, hPiece, rfl, rfl⟩ := h.isRecord_dead.mp hs
  have hLen := hPiece.le_len h
  simp only [runId_add]
  -- A recorded anchor there would have cut the piece.
  have hNoCut : ∀ a ∈ l.anchors, ∀ i, a.parent = some (runId head i) →
      x + j + 1 ≠ cutPlace a.side i := by
    intro a ha i hParent hCut
    have hIn : x + j + 1 ∈ l.ends head run := by
      refine List.mem_append_left _ (mem_cuts.mpr ⟨a, ha, h.cutBy_eq_some.mpr ?_⟩)
      exact ⟨i, run, hParent, hPiece.entry, by omega, by omega, hCut⟩
    have hWhole := hPiece.whole _ hIn
    omega
  constructor
  · intro ha
    rcases h.anchorOf_cases ha with hAnchor | ⟨head', run', i, hRun', hi, rfl, hEq⟩
    · exact absurd rfl (hNoCut _ hAnchor (x + j) rfl)
    · have hParent : runId head (x + j) = runId head' i :=
        Option.some.inj (congrArg Anchor.parent hEq)
      have hHolds : Holds l.dead head' run' (runId head (x + j)) :=
        ⟨hRun', hParent ▸ covers_runId.mpr (by omega)⟩
      have hSame := h.runs.apart _ _ _ _ _ (hPiece.holds h (by omega)) hHolds
      subst hSame
      rw [← runId_inj.mp hParent, Nat.add_assoc]
  · intro ha
    rcases h.anchorOf_cases ha with hAnchor | ⟨_, _, _, _, _, _, hEq⟩
    · exact hNoCut _ hAnchor (x + (j + 1)) rfl (Nat.add_assoc x j 1)
    · cases congrArg Anchor.side hEq

end FugueList

end CrdtSync
