import CrdtSync.Core.FugueOrder

/-!
# The two walks

A run-compressed list and the plain list of its cells are walked alike: a record
of the one is walked as the chain of its ids in the other.
-/

namespace CrdtSync

open Lib Runs
open Std (ExtTreeMap)

variable {V : Type} {l : FugueList V} {cells : PlainList V}

/-- `cells` is what `l` holds at every id. -/
structure Refines (l : FugueList V) (cells : PlainList V) : Prop where
  wf : l.WF
  cell : ∀ id, cells[id]? = l.cellAt id

theorem Refines.mem_childrenOf (h : Refines l cells) {p : Option Stamp} {side : Side} {id : Stamp} :
    id ∈ PlainList.childrenOf cells p side ↔ l.anchorOf id = some ⟨p, side⟩ := by
  unfold PlainList.childrenOf
  simp only [List.mem_map, List.mem_filter, Prod.exists, mem_toList_iff, h.cell, decide_eq_true_eq,
    FugueList.anchorOf_eq, Option.map_eq_some_iff]
  constructor
  · rintro ⟨_, c, ⟨hCell, hAnchor⟩, rfl⟩
    exact ⟨c, hCell, hAnchor⟩
  · rintro ⟨c, hCell, hAnchor⟩
    exact ⟨id, c, ⟨hCell, hAnchor⟩, rfl⟩

theorem childrenOf_sorted (p : Option Stamp) (side : Side) :
    (PlainList.childrenOf cells p side).Pairwise (· < ·) :=
  List.pairwise_map.mpr ((pairwise_keys_toList cells).filter _)

theorem childrenOf_nodup (p : Option Stamp) (side : Side) :
    (PlainList.childrenOf cells p side).Nodup :=
  (childrenOf_sorted p side).imp ne_of_lt

/-- The plain tree hangs every id in one place. -/
theorem Refines.isForest (h : Refines l cells) :
    (PlainList.tree cells).IsForest (cells.toList.map (·.1)) := by
  have hMem : ∀ p id, id ∈ (PlainList.tree cells).children p ↔
      l.anchorOf id = some ⟨p, .left⟩ ∨ l.anchorOf id = some ⟨p, .right⟩ := by
    intro p id
    rw [Forest.children, List.mem_append]
    exact or_congr h.mem_childrenOf h.mem_childrenOf
  have hParent : ∀ p id, id ∈ (PlainList.tree cells).children p →
      (l.anchorOf id).map (·.parent) = some p := by
    intro p id hIn
    rcases (hMem p id).mp hIn with hAnchor | hAnchor <;> rw [hAnchor] <;> rfl
  refine ⟨?_, ?_, ?_⟩
  · intro p id hIn
    rcases List.mem_append.mp hIn with hIn | hIn
    · obtain ⟨e, he, rfl⟩ := List.mem_map.mp hIn
      exact List.mem_map.mpr ⟨e, (List.mem_filter.mp he).1, rfl⟩
    · obtain ⟨e, he, rfl⟩ := List.mem_map.mp hIn
      exact List.mem_map.mpr ⟨e, (List.mem_filter.mp he).1, rfl⟩
  · intro p _
    refine List.nodup_append.mpr ⟨childrenOf_nodup p .left, childrenOf_nodup p .right, ?_⟩
    rintro a ha b hb rfl
    have hLeft := h.mem_childrenOf.mp ha
    have hRight := h.mem_childrenOf.mp hb
    rw [hLeft] at hRight
    cases hRight
  · intro p q id _ _ hp hq
    exact Option.some.inj ((hParent p id hp).symm.trans (hParent q id hq))

namespace FugueList

theorem mem_bucket {p : Option Stamp} {side : Side} {s : Span} :
    s ∈ l.bucket p side ↔ (⟨p, side⟩, s) ∈ l.records := by
  unfold bucket
  rw [(List.perm_insertionSort _ _).mem_iff]
  simp only [List.mem_map, List.mem_filter, decide_eq_true_eq, Prod.exists]
  constructor
  · rintro ⟨a, _, ⟨hIn, rfl⟩, rfl⟩
    exact hIn
  · exact fun hIn => ⟨_, s, ⟨hIn, rfl⟩, rfl⟩

/-- No two entries of the record list start at one id. -/
theorem WF.records_heads_nodup (h : l.WF) : (l.records.map fun r => r.2.head).Nodup := by
  unfold records
  rw [List.map_append, List.map_map, List.map_flatMap]
  refine List.nodup_append.mpr ⟨?_, ?_, ?_⟩
  · refine (List.pairwise_map.mpr ((pairwise_keys_toList l.nodes).imp ?_))
    intro a b hab hEq
    exact hab.ne (congrArg seqKey hEq)
  · refine List.nodup_flatMap.mpr ⟨?_, ?_⟩
    · rintro ⟨key, run⟩ hIn
      exact pieces_heads_nodup
        (h.ends_sorted (seqStamp key) (mem_toList_iff.mp hIn)) _
    · refine (pairwise_keys_toList l.dead).imp_of_mem ?_
      intro a b ha hb hab
      have hHeads : ∀ e : SeqKey × DeadRun, e ∈ l.dead.toList → ∀ id,
          id ∈ (pieces (seqStamp e.1) e.2.anchor 0 (l.cuts e.1 ++ [e.2.len])).map
            (fun r => r.2.head) → Holds l.dead (seqStamp e.1) e.2 id := by
        intro e he id hIn
        obtain ⟨⟨a, s⟩, hMem, rfl⟩ := List.mem_map.mp hIn
        have hRun : l.dead[seqKey (seqStamp e.1)]? = some e.2 := mem_toList_iff.mp he
        obtain ⟨x, y, hx, hy, hxy, hWhole, rfl, -⟩ := (mem_pieces (h.ends_sorted _ hRun)).mp hMem
        exact Piece.holds h ⟨hRun, hx, hy, hxy, hWhole⟩ hxy
      intro id hia hib
      have hSame := h.runs.apart _ _ _ _ _ (hHeads a ha id hia) (hHeads b hb id hib)
      exact hab.ne (congrArg seqKey hSame)
  · rintro id hNode id' hDead rfl
    obtain ⟨⟨key, n⟩, hIn, rfl⟩ := List.mem_map.mp hNode
    obtain ⟨⟨key', run⟩, hIn', hHead⟩ := List.mem_flatMap.mp hDead
    obtain ⟨⟨a, s⟩, hMem, hEq⟩ := List.mem_map.mp hHead
    have hRun : l.dead[seqKey (seqStamp key')]? = some run := mem_toList_iff.mp hIn'
    obtain ⟨x, y, hx, hy, hxy, hWhole, rfl, -⟩ := (mem_pieces (h.ends_sorted _ hRun)).mp hMem
    have hPiece : Piece l (seqStamp key') run x y := ⟨hRun, hx, hy, hxy, hWhole⟩
    have hNode : l.nodes[seqKey (seqStamp key)]? = some n := mem_toList_iff.mp hIn
    exact h.not_holds_node hNode ((show runId (seqStamp key') x = seqStamp key from hEq) ▸
      hPiece.holds h hxy)

theorem WF.bucket_heads_sorted (h : l.WF) (p : Option Stamp) (side : Side) :
    ((l.bucket p side).map Span.head).Pairwise (· < ·) := by
  have hNodup : ((l.bucket p side).map Span.head).Nodup := by
    unfold bucket
    rw [((List.perm_insertionSort _ _).map Span.head).nodup_iff, List.map_map]
    exact (List.filter_sublist.map _).nodup h.records_heads_nodup
  refine List.pairwise_map.mpr ?_
  have hLe : (l.bucket p side).Pairwise fun a b => a.head ≤ b.head := by
    unfold bucket
    have hTotal : Std.Total fun a b : Span => a.head ≤ b.head := ⟨fun a b => le_total _ _⟩
    have hTrans : IsTrans Span fun a b => a.head ≤ b.head := ⟨fun _ _ _ => le_trans⟩
    exact List.pairwise_insertionSort _ _
  exact hLe.imp₂ (fun a b => lt_of_le_of_ne) (List.pairwise_map.mp hNodup)

theorem WF.children_isForest (h : l.WF) : l.children.IsForest (l.records.map (·.2)) := by
  have hIn : ∀ p s, s ∈ l.children.children p ↔
      (⟨p.map Span.head, .left⟩, s) ∈ l.records ∨ (⟨p.map Span.last, .right⟩, s) ∈ l.records := by
    intro p s
    rw [Forest.children, List.mem_append]
    exact or_congr mem_bucket mem_bucket
  have hRecord : ∀ s ∈ l.records.map (·.2), l.IsRecord s := by
    intro s hs
    obtain ⟨⟨a, _⟩, hMem, rfl⟩ := List.mem_map.mp hs
    exact ⟨a, hMem⟩
  refine ⟨?_, ?_, ?_⟩
  · intro p s hs
    rcases (hIn p s).mp hs with hs | hs <;> exact List.mem_map.mpr ⟨_, hs, rfl⟩
  · intro p _
    refine List.nodup_append.mpr
      ⟨.of_map _ ((h.bucket_heads_sorted _ _).imp ne_of_lt),
        .of_map _ ((h.bucket_heads_sorted _ _).imp ne_of_lt), ?_⟩
    rintro s hs t ht rfl
    have hLeft := h.anchorOf_of_mem_records (mem_bucket.mp hs)
    have hRight := h.anchorOf_of_mem_records (mem_bucket.mp ht)
    cases congrArg Anchor.side (Option.some.inj (hLeft.symm.trans hRight))
  · intro p q s hp hq hsp hsq
    have hAnchor : ∀ {p}, s ∈ l.children.children p →
        l.anchorOf s.head = some ⟨p.map Span.head, .left⟩ ∨
          l.anchorOf s.head = some ⟨p.map Span.last, .right⟩ :=
      fun hs => ((hIn _ s).mp hs).imp h.anchorOf_of_mem_records h.anchorOf_of_mem_records
    have hEnds : p.map Span.head = q.map Span.head ∨ p.map Span.last = q.map Span.last := by
      rcases hAnchor hsp with hLeft | hRight <;> rcases hAnchor hsq with hLeft' | hRight'
      · rw [hLeft] at hLeft'
        exact .inl (congrArg Anchor.parent (Option.some.inj hLeft'))
      · cases congrArg Anchor.side (Option.some.inj (hLeft.symm.trans hRight'))
      · cases congrArg Anchor.side (Option.some.inj (hRight.symm.trans hLeft'))
      · rw [hRight] at hRight'
        exact .inr (congrArg Anchor.parent (Option.some.inj hRight'))
    cases p with
    | none => cases q <;> simp at hEnds ⊢
    | some a =>
      cases q with
      | none => simp at hEnds
      | some b =>
        have ha := hRecord a (hp a rfl)
        have hb := hRecord b (hq b rfl)
        rw [h.record_ext ha hb (hEnds.imp (by simp) (by simp))]

end FugueList

open FugueList

def Span.ids : Span → List Stamp
  | .node x => [x]
  | .dead head len => (List.range len).map (runId head)

/-- Away from the inside of a piece the two trees hang the same ids. -/
theorem Refines.childrenOf_eq (h : Refines l cells) {p : Option Stamp} {side : Side}
    (hEnd : ∀ first len j, l.IsRecord (.dead first len) → j + 1 < len →
      (⟨p, side⟩ : Anchor) ≠ ⟨some (runId first j), .right⟩) :
    PlainList.childrenOf cells p side = (l.bucket p side).map Span.head := by
  refine (childrenOf_sorted p side).eq_of_mem_iff (h.wf.bucket_heads_sorted p side) fun id => ?_
  rw [h.mem_childrenOf, List.mem_map]
  constructor
  · intro ha
    rcases h.wf.exists_record ha with ⟨s, hs, rfl⟩ | ⟨first, len, j, hs, hj, -, hEq⟩
    · exact ⟨s, mem_bucket.mpr hs, rfl⟩
    · exact absurd hEq (hEnd first len j hs hj)
  · rintro ⟨s, hs, rfl⟩
    exact h.wf.anchorOf_of_mem_records (mem_bucket.mp hs)

theorem Refines.left_eq (h : Refines l cells) (p : Option Span) :
    (PlainList.tree cells).left (p.map Span.head) = (l.children.left p).map Span.head :=
  h.childrenOf_eq fun _ _ _ _ _ hEq => nomatch congrArg Anchor.side hEq

theorem FugueList.WF.last_ne_inside (h : l.WF) {s : Span} (hs : l.IsRecord s) {first : Stamp}
    {len j : Nat} (hPiece : l.IsRecord (.dead first len)) (hj : j + 1 < len) :
    s.last ≠ runId first j := by
  obtain ⟨head, run, x, y, hp, rfl, rfl⟩ := h.isRecord_dead.mp hPiece
  rw [runId_add]
  intro hEq
  cases s with
  | node x' =>
    obtain ⟨n, hNode⟩ := isRecord_node.mp hs
    rw [show x' = runId head (x + j) from hEq] at hNode
    exact h.not_holds_node hNode (hp.holds h (by omega))
  | dead first' len' =>
    obtain ⟨head', run', x', y', hp', rfl, rfl⟩ := h.isRecord_dead.mp hs
    have hlt := hp'.lt
    simp only [Span.last, runId_add] at hEq
    have hHolds' : Holds l.dead head' run' (runId head (x + j)) := hEq ▸ hp'.holds h (by omega)
    have hSame := h.runs.apart _ _ _ _ _ (hp.holds h (show x + j < y by omega)) hHolds'
    subst hSame
    obtain rfl := Option.some.inj (hp.entry.symm.trans hp'.entry)
    have hStop := runId_inj.mp hEq
    have hWhole := hp.whole y' hp'.stops
    omega

theorem Refines.right_eq (h : Refines l cells) {p : Option Span} (hp : ∀ s ∈ p, l.IsRecord s) :
    (PlainList.tree cells).right (p.map Span.last) = (l.children.right p).map Span.head := by
  refine h.childrenOf_eq fun first len j hPiece hj hEq => ?_
  cases p with
  | none => cases hEq
  | some s =>
    exact h.wf.last_ne_inside (hp s rfl) hPiece hj (Option.some.inj (congrArg Anchor.parent hEq))

theorem Refines.walks_chain (h : Refines l cells) {first : Stamp} {len : Nat}
    (hPiece : l.IsRecord (.dead first len)) {rs : List Stamp}
    (hRight : (PlainList.tree cells).Walks
      ((PlainList.tree cells).right (some (runId first (len - 1)))) rs) (n k : Nat)
    (hk : k + (n + 1) = len) {ls : List Stamp}
    (hLeft : (PlainList.tree cells).Walks ((PlainList.tree cells).left (some (runId first k))) ls) :
    (PlainList.tree cells).Walks [runId first k]
      (ls ++ ((List.range' k (n + 1)).map (runId first) ++ rs)) := by
  induction n generalizing k ls with
  | zero =>
    rw [show len - 1 = k by omega] at hRight
    simpa using Forest.Walks.cons hLeft hRight .nil
  | succ n ih =>
    have hChild : (PlainList.tree cells).right (some (runId first k)) = [runId first (k + 1)] := by
      have hSingle : ∀ id, id ∈ PlainList.childrenOf cells (some (runId first k)) .right ↔
          id ∈ [runId first (k + 1)] := by
        intro id
        rw [h.mem_childrenOf, List.mem_singleton]
        constructor
        · exact (h.wf.inside_piece hPiece (by omega) id).1
        · rintro rfl
          obtain ⟨head, run, x, y, hp, rfl, rfl⟩ := h.wf.isRecord_dead.mp hPiece
          have hDead := h.wf.runs.deadAnchorOf_of_holds
            (hp.holds h.wf (show x + (k + 1) < y by omega))
          have hNode : l.nodes[seqKey (runId head (x + (k + 1)))]? = none := by
            cases hn : l.nodes[seqKey (runId head (x + (k + 1)))]? with
            | none => rfl
            | some n =>
              rw [h.wf.apart _ n hn] at hDead
              cases hDead
          rw [runId_add, anchorOf, hNode]
          dsimp only
          rw [hDead, chainAnchor_runId, if_neg (by omega), runId_add]
          rfl
      exact (childrenOf_sorted _ _).eq_of_mem_iff (List.pairwise_singleton _ _) hSingle
    have hNoLeft : (PlainList.tree cells).left (some (runId first (k + 1))) = [] := by
      refine List.eq_nil_iff_forall_not_mem.mpr fun id hIn => ?_
      exact (h.wf.inside_piece hPiece (by omega) id).2 (h.mem_childrenOf.mp hIn)
    have hNil : (PlainList.tree cells).Walks
        ((PlainList.tree cells).left (some (runId first (k + 1)))) [] := by
      rw [hNoLeft]
      exact .nil
    have hRest := ih (k + 1) (by omega) hNil
    rw [← hChild] at hRest
    have hWalk := Forest.Walks.cons hLeft hRest .nil
    rw [List.range'_succ]
    simpa using hWalk

theorem Refines.walks (h : Refines l cells) {siblings out : List Span}
    (hWalk : l.children.Walks siblings out) (hRecords : ∀ s ∈ siblings, l.IsRecord s) :
    (PlainList.tree cells).Walks (siblings.map Span.head) (out.flatMap Span.ids) := by
  induction hWalk with
  | nil => exact .nil
  | @cons s siblings ls rs out _ _ _ ihLeft ihRight ihRest =>
    have hs := hRecords s (by simp)
    have hBucket : ∀ p side, ∀ t ∈ l.bucket p side, l.IsRecord t :=
      fun p side t ht => ⟨_, mem_bucket.mp ht⟩
    have hLeft := ihLeft (hBucket _ _)
    have hRight := ihRight (hBucket _ _)
    have hRest := ihRest fun t ht => hRecords t (List.mem_cons_of_mem s ht)
    rw [← h.left_eq (some s)] at hLeft
    rw [← h.right_eq (p := some s) (by simpa using hs)] at hRight
    have hSelf : (PlainList.tree cells).Walks [s.head]
        (ls.flatMap Span.ids ++ (s.ids ++ rs.flatMap Span.ids)) := by
      cases s with
      | node x => simpa [Span.ids, Span.head] using Forest.Walks.cons hLeft hRight .nil
      | dead first len =>
        obtain ⟨head, run, x, y, hp, -, hLen⟩ := h.wf.isRecord_dead.mp hs
        have hlt := hp.lt
        have hChain := h.walks_chain hs hRight (len - 1) 0 (by omega) hLeft
        rw [show len - 1 + 1 = len by omega, ← List.range_eq_range'] at hChain
        exact hChain
    simpa using hSelf.append hRest

theorem Refines.order_eq (h : Refines l cells) :
    PlainList.order cells = l.treeOrder.flatMap Span.ids ∧ ∀ s ∈ l.treeOrder, l.IsRecord s := by
  have hForest := h.wf.children_isForest
  have hFuel : 2 * (l.records.map (·.2)).length + 1 ≤ 2 * l.records.length + 1 := by simp
  obtain ⟨out, hLoop, hWalk, -⟩ := Forest.loop_root hForest hFuel
  have hRoots : ∀ s ∈ l.children.children none, l.IsRecord s := by
    intro s hs
    obtain ⟨⟨a, _⟩, hMem, rfl⟩ := List.mem_map.mp (hForest.mem none s hs)
    exact ⟨a, hMem⟩
  have hOrder : l.treeOrder = out := by
    rw [treeOrder, hLoop]
    rfl
  have hPlain := h.walks hWalk hRoots
  have hHeads : (l.children.children none).map Span.head = (PlainList.tree cells).children none := by
    rw [Forest.children, Forest.children, List.map_append, ← h.left_eq none,
      ← h.right_eq (p := none) (by simp)]
    rfl
  have hWalks := Forest.walks_order h.isForest
    (show (cells.toList.map (·.1)).length ≤ cells.size by simp)
  rw [hHeads] at hPlain
  refine ⟨?_, fun s hs => ?_⟩
  · rw [hOrder]
    exact hWalks.unique hPlain
  · rw [hOrder] at hs
    obtain ⟨a, ha, hBelow⟩ := hWalk.mem_below hs
    obtain ⟨b, hb, rfl⟩ := List.mem_map.mp (hBelow.mem hForest (hForest.mem none a ha))
    exact ⟨b.1, hb⟩

end CrdtSync
