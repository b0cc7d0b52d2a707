import CrdtSync.Core.Restored
import CrdtSync.Core.FugueGrowth

/-!
# Runs typed at one gap

Whatever an author types inside, before or after its own run hangs below the first item of the run.
Two runs typed at one gap hang on two siblings, so no list that holds both mixes them.
-/

namespace CrdtSync

open Lib Runs SeqValue PlainList
open Std (ExtTreeMap)

/-- One item typed at a live index. -/
structure Stroke (V : Type) where
  index : Nat
  stamp : Stamp
  value : V

/-- Ids that hang below the first of them, which hangs at `a`. -/
inductive Spreads (a : Anchor) : List (Stamp × Anchor) → Prop
  | first (x : Stamp) : Spreads a [(x, a)]
  | next {ops : List (Stamp × Anchor)} (h : Spreads a ops) {y : Stamp} {b : Anchor} (x : Stamp)
      (hParent : b.parent = some y) (hy : y ∈ ops.map Prod.fst) : Spreads a (ops ++ [(x, b)])

theorem placement_parent {V : Type} {cells : PlainList V} {left right : Option Stamp} {p : Stamp}
    (h : (PlainList.placement cells left right).parent = some p) :
    left = some p ∨ right = some p := by
  cases left with
  | none =>
    cases right with
    | none => cases h
    | some r => exact .inr h
  | some y =>
    simp only [PlainList.placement] at h
    split at h
    · exact .inl h
    · cases right with
      | none => exact .inl h
      | some r => exact .inr h

namespace Inserts

variable {V : Type} {l l' : FugueList V} {x : Stamp} {value : V} {a : Anchor}
  {exclude : Option Stamp} {index : Nat} {pre post : List Stamp}

theorem childrenOf_eq (h : Inserts l l' x value a exclude index pre post) (hWF : l.WF)
    (hWF' : l'.WF) (p : Option Stamp) (side : Side) : childrenOf l'.plain p side =
      childrenOf l.plain p side ++ if a = ⟨p, side⟩ then [x] else [] := by
  have hAdds : Adds l.plain l'.plain x a (some ⟨value, false⟩) :=
    ⟨by rw [hWF.refines.cell, h.vacant],
      fun y => by rw [hWF'.refines.cell, h.cell, hWF.refines.cell]⟩
  have hSole := placement_sole h.order hWF.refines.order_nodup hWF.refines.walks_plain
  rw [← h.anchor] at hSole
  exact hAdds.childrenOf_eq hSole p side

/-- Nothing hangs on the new id. -/
theorem childless (h : Inserts l l' x value a exclude index pre post) (hWF : l.WF) (hWF' : l'.WF)
    (hNames : l.names x = false) (side : Side) :
    childrenOf l'.plain (some x) side = [] := by
  rw [h.childrenOf_eq hWF hWF', hWF.refines.childless hNames, if_neg ?_]
  · rfl
  · intro hSelf
    have hOut := h.ne_of_split hWF
    rcases placement_parent (h.anchor ▸ congrArg Anchor.parent hSelf) with hBeside | hBeside
    · exact hOut x (List.mem_append_left _ (List.mem_of_getLast? hBeside)) rfl
    · exact hOut x (List.mem_append_right _ (List.mem_of_head? hBeside)) rfl

end Inserts

namespace FugueList

variable {V : Type} [SeqValue V] {base l l' : FugueList V} {index : Nat}
  {ops : List (Stamp × Anchor)} {pre block post : List Stamp}

def stroke (l : FugueList V) (s : Stroke V) : FugueList V :=
  l.insertAt s.stamp s.value (l.place s.index)

def typedAt (l : FugueList V) : List (Stroke V) → List (Stamp × Anchor)
  | [] => []
  | s :: strokes => (s.stamp, l.place s.index) :: (l.stroke s).typedAt strokes

/-- Every item is new, and goes before, after or into the run of `count` items at `index`. -/
def Contiguous (l : FugueList V) (index : Nat) : Nat → List (Stroke V) → Prop
  | _, [] => True
  | count, s :: strokes => index ≤ s.index ∧ s.index ≤ index + count ∧
      l.names s.stamp = false ∧ (l.stroke s).Contiguous index (count + 1) strokes

instance decContiguous : (l : FugueList V) → (index count : Nat) → (strokes : List (Stroke V)) →
    Decidable (l.Contiguous index count strokes)
  | _, _, _, [] => .isTrue trivial
  | l, index, count, s :: strokes =>
    have := decContiguous (l.stroke s) index (count + 1) strokes
    inferInstanceAs (Decidable (_ ∧ _ ∧ _ ∧ _))

/-- Two splits of one order that count the same, each right after an id that counts. -/
theorem split_unique {p : Stamp → Bool} {a b c d : List Stamp} (h : a ++ b = c ++ d)
    (hCount : (a.filter p).length = (c.filter p).length)
    (ha : ∀ y, a.getLast? = some y → p y = true) (hc : ∀ y, c.getLast? = some y → p y = true) :
    a = c ∧ b = d := by
  have hNil {xs ys : List Stamp} (hSame : (xs.filter p).length = ((xs ++ ys).filter p).length)
      (hLast : ∀ y, (xs ++ ys).getLast? = some y → p y = true) : ys = [] := by
    rcases List.eq_nil_or_concat ys with rfl | ⟨zs, z, rfl⟩
    · rfl
    · have hz : p z = true := hLast z (by simp)
      simp [List.filter_append, hz] at hSame
  rcases List.append_eq_append_iff.mp h with ⟨e, rfl, rfl⟩ | ⟨e, rfl, rfl⟩
  · obtain rfl := hNil hCount hc
    simp
  · obtain rfl := hNil hCount.symm ha
    simp

/-- The run as it stands: `block` between what precedes the gap and what follows it. -/
structure Typing (base l : FugueList V) (index : Nat) (ops : List (Stamp × Anchor))
    (pre block post : List Stamp) : Prop where
  wf : l.WF
  order : PlainList.order l.plain = pre ++ (block ++ post)
  count : (pre.filter (PlainList.live l.plain)).length = index
  last : ∀ y, pre.getLast? = some y → PlainList.live l.plain y = true
  live : ∀ y ∈ block, PlainList.live l.plain y = true
  ids : ∀ x, x ∈ block ↔ x ∈ ops.map Prod.fst
  length : block.length = ops.length
  /-- Nothing typed at the left end of the run hangs to the right of what precedes it. -/
  edge : block ≠ [] → ∀ y, pre.getLast? = some y → childrenOf l.plain (some y) .right ≠ []
  bare : ∀ y, block.getLast? = some y → childrenOf l.plain (some y) .right = []
  spreads : ops ≠ [] → Spreads (base.place index) ops
  start : ops = [] → l = base
  held : ∀ e ∈ ops, l.anchorOf e.1 = some e.2 ∧ base.cellAt e.1 = none
  other : ∀ y, y ∉ ops.map Prod.fst → l.cellAt y = base.cellAt y

omit [SeqValue V] in
theorem typing_start (h : base.WF) (hIndex : index ≤ base.liveOrder.length) :
    ∃ pre post, Typing base base index [] pre [] post := by
  obtain ⟨pre, post, hOrder, -, hCount, hLast⟩ :=
    gapWhere_spec (PlainList.live base.plain) (PlainList.order base.plain) index none
  have hLive : ((PlainList.order base.plain).filter (PlainList.live base.plain)).length =
      base.liveOrder.length := by
    rw [h.refines.liveOrder_eq]
    rfl
  rw [hLive] at hCount hLast
  exact ⟨pre, post, h, by simpa using hOrder, hCount.trans (min_eq_left hIndex), hLast hIndex,
    by simp, by simp, rfl, fun h => absurd rfl h, by simp, fun h => absurd rfl h, fun _ => rfl,
    by simp, fun _ _ => rfl⟩

omit [SeqValue V] in
/-- A place at or within the run is beside an item of the run, and it is right of the last one only
when it is the right end. -/
theorem placement_within {cells : PlainList V} {front back : List Stamp} (post : List Stamp)
    (hSome : front ++ back ≠ []) (hNodup : (front ++ back).Nodup)
    (hEdge : ∀ y, pre.getLast? = some y → childrenOf cells (some y) .right ≠ [])
    (hBare : ∀ y, (front ++ back).getLast? = some y → childrenOf cells (some y) .right = []) :
    (∃ y ∈ front ++ back,
      (PlainList.placement cells (pre ++ front).getLast? (back ++ post).head?).parent = some y) ∧
    ∀ z ∈ back,
      PlainList.placement cells (pre ++ front).getLast? (back ++ post).head? ≠ ⟨some z, .right⟩ := by
  rcases List.eq_nil_or_concat front with rfl | ⟨front, y, rfl⟩
  · cases back with
    | nil => exact absurd rfl hSome
    | cons b back =>
      have hPlace : PlainList.placement cells (pre ++ []).getLast? (b :: back ++ post).head? =
          ⟨some b, .left⟩ := by
        rw [List.append_nil, List.cons_append, List.head?_cons]
        cases hPre : pre.getLast? with
        | none => rfl
        | some p => rw [PlainList.placement, if_neg (hEdge p hPre)]
      rw [hPlace]
      exact ⟨⟨b, by simp, rfl⟩, fun z _ => by simp⟩
  · have hLast : (pre ++ front.concat y).getLast? = some y := by simp
    rw [hLast]
    simp only [PlainList.placement]
    split
    next =>
      refine ⟨⟨y, by simp, rfl⟩, fun z hz hEq => ?_⟩
      obtain rfl := Option.some.inj (congrArg Anchor.parent hEq)
      exact (List.nodup_append.mp hNodup).2.2 y (by simp) y hz rfl
    next hHung =>
      cases back with
      | nil => exact absurd (hBare y (by simp)) hHung
      | cons b back => exact ⟨⟨b, by simp, rfl⟩, fun z _ => by simp⟩

/-- One more item leaves the run in one piece. -/
theorem Typing.stroke (h : Typing base l index ops pre block post) (s : Stroke V)
    (hLow : index ≤ s.index) (hHigh : s.index ≤ index + block.length)
    (hNew : l.names s.stamp = false) :
    ∃ block', Typing base (l.stroke s) index (ops ++ [(s.stamp, l.place s.index)]) pre block'
      post := by
  obtain ⟨index', x, value⟩ := s
  obtain ⟨t, rfl⟩ := Nat.exists_eq_add_of_le hLow
  have ht : t ≤ block.length := by simpa using hHigh
  dsimp only at hNew ⊢
  obtain ⟨before, after, hInserts⟩ := h.wf.inserts hNew value (index + t) none
  have hWF' : (l.stroke ⟨index + t, x, value⟩).WF := (h.wf.insertAt x value _).wf
  change Inserts l (l.stroke ⟨index + t, x, value⟩) x value (l.place (index + t)) none (index + t)
    before after at hInserts
  generalize hPlace : l.place (index + t) = a at hInserts ⊢
  generalize hStroke : l.stroke ⟨index + t, x, value⟩ = l' at hInserts hWF' ⊢
  -- the gap lies within the run
  have hTake : (pre ++ block.take t).filter (PlainList.live l.plain) =
      pre.filter (PlainList.live l.plain) ++ block.take t := by
    rw [List.filter_append]
    congr 1
    exact List.filter_eq_self.mpr fun y hy => h.live y (List.mem_of_mem_take hy)
  have hOrder : before ++ after = (pre ++ block.take t) ++ (block.drop t ++ post) := by
    rw [← hInserts.order, h.order, List.append_assoc, ← List.append_assoc (block.take t),
      List.take_append_drop]
  have hIndex : index + t ≤ ((before ++ after).filter (PlainList.live l.plain)).length := by
    rw [hOrder, List.filter_append, hTake, List.length_append, List.length_append, h.count,
      List.length_take, min_eq_left ht]
    omega
  have hCount := hInserts.count
  have hLast := hInserts.last
  rw [counted_none] at hCount hLast
  obtain ⟨rfl, rfl⟩ := split_unique hOrder
    (by
      rw [hCount, min_eq_left hIndex, hTake, List.length_append, h.count, List.length_take,
        min_eq_left ht])
    (hLast hIndex)
    (fun y hy => by
      rw [List.getLast?_append] at hy
      rcases Option.or_eq_some_iff.mp hy with hy | ⟨-, hy⟩
      · exact h.live y (List.mem_of_mem_take (List.mem_of_getLast? hy))
      · exact h.last y hy)
  have hOut := hInserts.ne_of_split h.wf
  have hLive := hInserts.live_eq h.wf hWF'
  have hChildren := hInserts.childrenOf_eq h.wf hWF'
  have hAnchor := hInserts.anchor
  have hMem (y : Stamp) : y ∈ block.take t ++ x :: block.drop t ↔ y ∈ block ∨ y = x := by
    rw [List.mem_append, List.mem_cons, or_left_comm, ← List.mem_append, List.take_append_drop,
      or_comm]
  have hShown (y : Stamp) (hy : PlainList.live l.plain y = true) :
      PlainList.live l'.plain y = true := by
    rw [hLive]
    split <;> simp [hy]
  have hNodup : block.Nodup := by
    have hAll := h.wf.refines.order_nodup
    rw [h.order] at hAll
    exact (List.nodup_append.mp (List.nodup_append.mp hAll).2.1).1
  have hFresh : x ∉ ops.map Prod.fst := fun hIn => by
    have hBlock := (h.ids x).mpr hIn
    rw [← List.take_append_drop t block, List.mem_append] at hBlock
    refine hOut x ?_ rfl
    rcases hBlock with hBlock | hBlock <;> simp [hBlock]
  have hWithin (hSome : block ≠ []) := by
    rw [← List.take_append_drop t block] at hSome
    exact placement_within post hSome (by rwa [List.take_append_drop])
      (h.edge (by rwa [List.take_append_drop] at hSome))
      (by rw [List.take_append_drop]; exact h.bare)
  rw [List.take_append_drop, ← hAnchor] at hWithin
  refine ⟨block.take t ++ x :: block.drop t, hWF', ?_, ?_, fun y hy => hShown y (h.last y hy), ?_, ?_,
    ?_, ?_, ?_, fun _ => ?_, ?_, ?_, ?_⟩
  · rw [hInserts.order']
    simp
  · rw [← h.count]
    congr 1
    exact List.filter_congr fun y hy => by rw [hLive, if_neg (hOut y (by simp [hy]))]
  · intro y hy
    rcases (hMem y).mp hy with hy | rfl
    · exact hShown y (h.live y hy)
    · rw [hLive, if_pos rfl]
  · intro y
    rw [hMem, h.ids]
    simp
  · have hLength := h.length
    simp only [List.length_append, List.length_cons, List.length_take, List.length_drop,
      List.length_nil]
    omega
  · -- the left end
    intro _ y hy
    rw [hChildren]
    cases block with
    | nil =>
      by_cases hNone : childrenOf l.plain (some y) .right = []
      · have hPlaced : a = ⟨some y, .right⟩ := by
          rw [hAnchor]
          simp only [List.take_nil, List.append_nil, hy, PlainList.placement, hNone, if_true]
        simp [hPlaced]
      · exact fun hNil => hNone (List.append_eq_nil_iff.mp hNil).1
    | cons b block =>
      exact fun hNil => h.edge (List.cons_ne_nil b block) y hy (List.append_eq_nil_iff.mp hNil).1
  · -- the right end
    intro y hy
    cases hBack : block.drop t with
    | nil =>
      obtain rfl : x = y := by simpa [hBack] using hy
      exact hInserts.childless h.wf hWF' hNew .right
    | cons b back =>
      have hBackLast : (block.drop t).getLast? = some y := by
        rw [hBack, List.getLast?_append, List.getLast?_cons_cons] at hy
        rw [hBack]
        exact (Option.or_of_isSome (by simp)).symm.trans hy
      have hSome : block ≠ [] := by
        rintro rfl
        simp at hBack
      have hBlockLast : block.getLast? = some y := by
        rw [← List.take_append_drop t block, List.getLast?_append, hBackLast]
        rfl
      have hNot := (hWithin hSome).2 y (List.mem_of_getLast? hBackLast)
      rw [hChildren, h.bare y hBlockLast, if_neg hNot]
      rfl
  · by_cases hOps : ops = []
    · obtain rfl := h.start hOps
      obtain rfl : block = [] := List.length_eq_zero_iff.mp (h.length.trans (by rw [hOps]; rfl))
      obtain rfl : t = 0 := Nat.le_zero.mp ht
      rw [hOps, ← hPlace]
      exact .first x
    · have hSome : block ≠ [] := fun hNil => hOps (List.length_eq_zero_iff.mp (by
        rw [← h.length, hNil]
        rfl))
      obtain ⟨⟨y, hy, hParent⟩, -⟩ := hWithin hSome
      exact (h.spreads hOps).next x hParent ((h.ids y).mp hy)
  · simp
  · intro e he
    rcases List.mem_append.mp he with he | he
    · obtain ⟨hHeld, hVacant⟩ := h.held e he
      refine ⟨?_, hVacant⟩
      have hNe : e.1 ≠ x := fun hEq => hFresh (hEq ▸ List.mem_map_of_mem he)
      rw [anchorOf_eq, hInserts.cell, if_neg hNe, ← anchorOf_eq, hHeld]
    · obtain rfl := List.mem_singleton.mp he
      refine ⟨by rw [anchorOf_eq, hInserts.cell, if_pos rfl]; rfl, ?_⟩
      rw [← h.other x hFresh, hInserts.vacant]
  · intro y hy
    simp only [List.map_append, List.map_cons, List.map_nil, List.mem_append, List.mem_singleton,
      not_or] at hy
    rw [hInserts.cell, if_neg hy.2, h.other y hy.1]

theorem Typing.strokes (h : Typing base l index ops pre block post) {strokes : List (Stroke V)}
    (hRun : l.Contiguous index block.length strokes) :
    ∃ block', Typing base (strokes.foldl FugueList.stroke l) index (ops ++ l.typedAt strokes) pre block'
      post := by
  induction strokes generalizing l ops block with
  | nil => exact ⟨block, by simpa [typedAt] using h⟩
  | cons s strokes ih =>
    obtain ⟨hLow, hHigh, hNew, hRest⟩ := hRun
    obtain ⟨block', hNext⟩ := h.stroke s hLow hHigh hNew
    have hLength : block'.length = block.length + 1 := by
      rw [hNext.length, h.length, List.length_append]
      rfl
    obtain ⟨final, hFinal⟩ := ih hNext (hLength ▸ hRest)
    exact ⟨final, by simpa [typedAt, List.append_assoc] using hFinal⟩

/-! ### Runs in a larger list -/

variable {m : FugueList V} {a : Anchor} {mine theirs : List (Stamp × Anchor)}

def Holds (m : FugueList V) (ops : List (Stamp × Anchor)) : Prop :=
  ∀ e ∈ ops, m.anchorOf e.1 = some e.2

omit [SeqValue V] in
/-- A run hangs below its first item. -/
theorem Holds.below (hm : m.WF) (h : m.Holds ops) (hSpreads : Spreads a ops) :
    ∃ r ∈ ops.map Prod.fst, r ∈ childrenOf m.plain a.parent a.side ∧
      ∀ x ∈ ops.map Prod.fst, (tree m.plain).Below r x := by
  induction hSpreads with
  | first x =>
    refine ⟨x, by simp, hm.refines.mem_childrenOf.mpr (h (x, a) (by simp)), fun y hy => ?_⟩
    obtain rfl : y = x := by simpa using hy
    exact .refl
  | @next ops hSpreads y b x hParent hy ih =>
    obtain ⟨r, hr, hTop, hBelow⟩ := ih fun e he => h e (List.mem_append_left _ he)
    have hChild : x ∈ (tree m.plain).children (some y) := by
      have hAnchor := h (x, b) (by simp)
      rw [← hParent]
      obtain ⟨parent, side⟩ := b
      have hIn := hm.refines.mem_childrenOf.mpr hAnchor
      cases side
      · exact List.mem_append_left _ hIn
      · exact List.mem_append_right _ hIn
    refine ⟨r, by simp_all, hTop, fun z hz => ?_⟩
    rw [List.map_append, List.mem_append] at hz
    rcases hz with hz | hz
    · exact hBelow z hz
    · obtain rfl : z = x := by simpa using hz
      exact (hBelow y hy).tail hChild

omit [SeqValue V] in
theorem mem_sequence_of_child (hm : m.WF) {p x : Stamp}
    (hx : x ∈ m.sequence) (hChild : x ∈ (tree m.plain).children (some p)) : p ∈ m.sequence := by
  rw [hm.sequence_eq] at hx ⊢
  have hWalk := hm.refines.walks_plain
  have hAnchor {q : Option Stamp} (h : x ∈ (tree m.plain).children q) :
      ∃ side, m.anchorOf x = some ⟨q, side⟩ := by
    rcases List.mem_append.mp h with h | h
    · exact ⟨.left, hm.refines.mem_childrenOf.mp h⟩
    · exact ⟨.right, hm.refines.mem_childrenOf.mp h⟩
  obtain ⟨side, hOwn⟩ := hAnchor hChild
  obtain ⟨t, ht, hBelow⟩ := hWalk.mem_below hx
  rcases Relation.ReflTransGen.cases_tail hBelow with rfl | ⟨q, hAbove, hLast⟩
  · obtain ⟨side', hTop⟩ := hAnchor ht
    rw [hOwn] at hTop
    simp at hTop
  · obtain ⟨side', hTop⟩ := hAnchor hLast
    rw [hOwn] at hTop
    obtain rfl : p = q := by simpa using congrArg (Option.map Anchor.parent) hTop
    exact hWalk.mem_of_below ht hAbove

omit [SeqValue V] in
theorem mem_sequence_of_below (hm : m.WF) {p x : Stamp} (hx : x ∈ m.sequence)
    (hBelow : (tree m.plain).Below p x) : p ∈ m.sequence := by
  induction hBelow using Relation.ReflTransGen.head_induction_on with
  | refl => exact hx
  | head hChild _ ih => exact mem_sequence_of_child hm ih hChild

/-- Of the ids of the two runs that are in the order, all of one run come before all of the other. -/
def Apart (order : List Stamp) (mine theirs : List (Stamp × Anchor)) : Prop :=
  (∀ x ∈ mine.map Prod.fst, ∀ y ∈ theirs.map Prod.fst, x ∈ order → y ∈ order →
    [x, y].Sublist order) ∨
  ∀ x ∈ mine.map Prod.fst, ∀ y ∈ theirs.map Prod.fst, x ∈ order → y ∈ order →
    [y, x].Sublist order

omit [SeqValue V] in
theorem apart_of_spreads (hm : m.WF) (hMine : Spreads a mine) (hTheirs : Spreads a theirs)
    (hApart : ∀ x ∈ mine.map Prod.fst, x ∉ theirs.map Prod.fst) (hHolds : m.Holds mine)
    (hHolds' : m.Holds theirs) : Apart m.sequence mine theirs := by
  obtain ⟨r, hr, hTop, hBelow⟩ := hHolds.below hm hMine
  obtain ⟨r', hr', hTop', hBelow'⟩ := hHolds'.below hm hTheirs
  have hNe : r ≠ r' := fun hEq => hApart r hr (hEq ▸ hr')
  have hWalk := hm.refines.walks_plain
  -- one first item is the elder sibling of the other
  have hSiblings {s s' : Stamp} (hLt : s < s') (hs : s ∈ childrenOf m.plain a.parent a.side)
      (hs' : s' ∈ childrenOf m.plain a.parent a.side) {x y : Stamp}
      (hx : (tree m.plain).Below s x) (hy : (tree m.plain).Below s' y) (hIn : x ∈ m.sequence) :
      [x, y].Sublist m.sequence := by
    have hPair : [s, s'].Sublist (childrenOf m.plain a.parent a.side) := by
      refine List.sublist_of_subperm_of_pairwise (List.subperm_of_subset (by simp [hLt.ne])
        (List.cons_subset.mpr ⟨hs, List.cons_subset.mpr ⟨hs', List.nil_subset _⟩⟩))
        (by simp [hLt]) (childrenOf_sorted a.parent a.side)
    rw [hm.sequence_eq]
    refine hWalk.siblings ?_ hx hy
    have hFirst := mem_sequence_of_below hm hIn hx
    obtain ⟨_ | p, side⟩ := a
    · refine .inl ?_
      cases side
      · exact hPair.trans (List.sublist_append_left _ _)
      · exact hPair.trans (List.sublist_append_right _ _)
    · have hChild : s ∈ (tree m.plain).children (some p) := by
        cases side
        · exact List.mem_append_left _ hs
        · exact List.mem_append_right _ hs
      refine .inr ⟨p, hm.sequence_eq ▸ mem_sequence_of_child hm hFirst hChild, ?_⟩
      cases side
      · exact .inl hPair
      · exact .inr hPair
  rcases lt_or_gt_of_ne hNe with hLt | hLt
  · exact .inl fun x hx y hy hIn _ => hSiblings hLt hTop hTop' (hBelow x hx) (hBelow' y hy) hIn
  · exact .inr fun x hx y hy _ hIn => hSiblings hLt hTop' hTop (hBelow' y hy) (hBelow x hx) hIn

/-! ### Typing into lists and texts -/

/-- Right after the last item typed, the next one hangs on its right. -/
theorem place_after_stroke (h : l.WF) (s : Stroke V) (hIndex : s.index ≤ l.liveOrder.length)
    (hNew : l.names s.stamp = false) :
    (l.stroke s).place (s.index + 1) = ⟨some s.stamp, .right⟩ ∧
      (l.stroke s).liveOrder.length = l.liveOrder.length + 1 := by
  obtain ⟨index, x, value⟩ := s
  dsimp only at hIndex hNew ⊢
  obtain ⟨before, after, hInserts⟩ := h.inserts hNew value index none
  have hWF' : (l.stroke ⟨index, x, value⟩).WF := (h.insertAt x value _).wf
  change Inserts l (l.stroke ⟨index, x, value⟩) x value (l.place index) none index before after
    at hInserts
  generalize l.place index = a at hInserts
  generalize l.stroke ⟨index, x, value⟩ = l' at hInserts hWF' ⊢
  obtain ⟨hOld, hShown⟩ := hInserts.filter_live h hWF'
  have hLength : l'.liveOrder.length = l.liveOrder.length + 1 := by
    rw [hOld, hShown, List.length_append, List.length_append, List.length_cons]
    omega
  refine ⟨?_, hLength⟩
  have hOut := hInserts.ne_of_split h
  have hLive := hInserts.live_eq h hWF'
  have hCount := hInserts.count
  have hLast := hInserts.last
  rw [counted_none] at hCount hLast
  rw [hOld, ← List.filter_append] at hIndex
  -- the gap after it is right of it
  obtain ⟨pre, post, hOrder, hGap, hPre, hEdge⟩ :=
    gapWhere_spec (PlainList.live l'.plain) (PlainList.order l'.plain) (index + 1) none
  have hAll : ((PlainList.order l'.plain).filter (PlainList.live l'.plain)).length =
      l'.liveOrder.length := by
    rw [hWF'.refines.liveOrder_eq]
    rfl
  have hBefore : before.filter (PlainList.live l'.plain) = before.filter (PlainList.live l.plain) :=
    List.filter_congr fun y hy => by rw [hLive, if_neg (hOut y (List.mem_append_left _ hy))]
  rw [hAll, hLength, hOld, ← List.filter_append] at hPre hEdge
  obtain ⟨rfl, rfl⟩ := split_unique (p := PlainList.live l'.plain) (a := pre) (b := post)
    (c := before ++ [x]) (d := after)
    (by rw [← hOrder, hInserts.order', List.append_assoc]; rfl)
    (by
      have hNewLive : PlainList.live l'.plain x = true := by rw [hLive, if_pos rfl]
      have hSplit : (before ++ [x]).filter (PlainList.live l'.plain) = _ := List.filter_append ..
      rw [hPre, hSplit, List.length_append, hBefore, hCount]
      simp only [List.filter_cons_of_pos hNewLive, List.filter_nil, List.length_singleton]
      omega)
    (hEdge (by omega))
    (fun y hy => by
      obtain rfl : x = y := by simpa using hy
      rw [hLive, if_pos rfl])
  have hBare := hInserts.childless h hWF' hNew .right
  rw [place, hWF'.refines.placeExcluding_eq, counted_none, hGap]
  simp [PlainList.placement, hBare]

end FugueList

/-- An edit of a list or a text. -/
inductive Typed
  | item (index : Nat) (stamp : Stamp) (value : Element)
  | text (index : Nat) (base : Stamp) (s : List Char)

namespace Typed

/-- The codepoints of a run, each typed after the one before. -/
def chars (index : Nat) (base : Stamp) : Nat → List Char → List (Stroke Element)
  | _, [] => []
  | k, c :: s => ⟨index + k, base.runMember k, .scalar (.int c.toNat)⟩ :: chars index base (k + 1) s

def strokes : Typed → List (Stroke Element)
  | .item index stamp value => [⟨index, stamp, value⟩]
  | .text index base s => chars index base 0 s

end Typed

namespace FugueList

variable [IdBytes]

/-- `place`, then `insert_at` or `insert_run`. -/
def type (l : FugueList Element) : Typed → FugueList Element
  | .item index stamp value => l.insertAt stamp value (l.place index)
  | .text index base s => Content.insertRun base 0 s (l.place index) l

variable {l : FugueList Element} {index count : Nat} {edits : List Typed}

theorem contiguous_append {s t : List (Stroke Element)} :
    l.Contiguous index count (s ++ t) ↔ l.Contiguous index count s ∧
      (s.foldl stroke l).Contiguous index (count + s.length) t := by
  induction s generalizing l count with
  | nil => simp [Contiguous]
  | cons a s ih =>
    rw [List.cons_append, Contiguous, Contiguous, ih, List.foldl_cons, List.length_cons]
    have hCount : count + 1 + s.length = count + (s.length + 1) := by omega
    rw [hCount]
    tauto

theorem insertRun_eq (hl : l.WF) {base : Stamp} {i k : Nat} {s : List Char} {anchor : Anchor}
    (hAnchor : s ≠ [] → anchor = l.place (i + k)) (hCount : index + count ≤ l.liveOrder.length)
    (hRun : l.Contiguous index count (Typed.chars i base k s)) :
    Content.insertRun base k s anchor l = (Typed.chars i base k s).foldl stroke l := by
  induction s generalizing l k count anchor with
  | nil => rfl
  | cons c s ih =>
    obtain ⟨hLow, hHigh, hNew, hRest⟩ := hRun
    dsimp only at hLow hHigh hNew
    obtain ⟨hPlace, hLength⟩ := place_after_stroke hl
      ⟨i + k, base.runMember k, Element.scalar (.int c.toNat)⟩ (hHigh.trans hCount) hNew
    rw [Content.insertRun, hAnchor (List.cons_ne_nil c s), Typed.chars, List.foldl_cons]
    have hNext : index + (count + 1) ≤
        (l.stroke ⟨i + k, base.runMember k, .scalar (.int c.toNat)⟩).liveOrder.length := by
      omega
    exact ih (hl.insertAt _ _ _).wf (fun _ => hPlace.symm) hNext hRest

theorem type_eq (hl : l.WF) {t : Typed} (hCount : index + count ≤ l.liveOrder.length)
    (hRun : l.Contiguous index count t.strokes) : l.type t = t.strokes.foldl stroke l := by
  cases t with
  | item i stamp value => rfl
  | text i base s => exact insertRun_eq hl (fun _ => rfl) hCount hRun

omit [IdBytes] in
theorem Apart.filter {order : List Stamp} {mine theirs : List (Stamp × Anchor)} (p : Stamp → Bool)
    (h : Apart order mine theirs) : Apart (order.filter p) mine theirs := by
  have hPair {x y : Stamp} (hx : x ∈ order.filter p) (hy : y ∈ order.filter p)
      (hxy : [x, y].Sublist order) : [x, y].Sublist (order.filter p) := by
    have hFilter := hxy.filter p
    rwa [List.filter_cons_of_pos (List.mem_filter.mp hx).2,
      List.filter_cons_of_pos (List.mem_filter.mp hy).2, List.filter_nil] at hFilter
  refine h.imp (fun h x hx y hy hxIn hyIn => ?_) fun h x hx y hy hxIn hyIn => ?_
  · exact hPair hxIn hyIn (h x hx y hy (List.mem_of_mem_filter hxIn) (List.mem_of_mem_filter hyIn))
  · exact hPair hyIn hxIn (h x hx y hy (List.mem_of_mem_filter hxIn) (List.mem_of_mem_filter hyIn))

theorem strokes_spec (hl : l.WF) {strokes : List (Stroke Element)}
    (hCount : index + count ≤ l.liveOrder.length) (hRun : l.Contiguous index count strokes) :
    (strokes.foldl stroke l).WF ∧
      index + (count + strokes.length) ≤ (strokes.foldl stroke l).liveOrder.length := by
  induction strokes generalizing l count with
  | nil => exact ⟨hl, hCount⟩
  | cons s strokes ih =>
    obtain ⟨-, hHigh, hNew, hRest⟩ := hRun
    obtain ⟨-, hLength⟩ := place_after_stroke hl s (hHigh.trans hCount) hNew
    have hNext : index + (count + 1) ≤ (l.stroke s).liveOrder.length := by omega
    have hNextWF : (l.stroke s).WF := (hl.insertAt _ _ _).wf
    obtain ⟨hWF, hMore⟩ := ih hNextWF hNext hRest
    refine ⟨hWF, ?_⟩
    rw [List.length_cons, List.foldl_cons]
    omega

def typedItems (l : FugueList Element) (edits : List Typed) : List (Stamp × Anchor) :=
  l.typedAt (edits.flatMap Typed.strokes)

/-- The edits type one run at `index`, each item new when it is typed. -/
def TypesRun (l : FugueList Element) (index : Nat) (edits : List Typed) : Prop :=
  l.Contiguous index 0 (edits.flatMap Typed.strokes)

instance (l : FugueList Element) (index : Nat) (edits : List Typed) :
    Decidable (l.TypesRun index edits) :=
  inferInstanceAs (Decidable (l.Contiguous index 0 (edits.flatMap Typed.strokes)))

theorem types_eq (hl : l.WF) {edits : List Typed} (hCount : index + count ≤ l.liveOrder.length)
    (hRun : l.Contiguous index count (edits.flatMap Typed.strokes)) :
    edits.foldl type l = (edits.flatMap Typed.strokes).foldl stroke l := by
  induction edits generalizing l count with
  | nil => rfl
  | cons t edits ih =>
    rw [List.flatMap_cons] at hRun
    obtain ⟨hFirst, hRest⟩ := contiguous_append.mp hRun
    obtain ⟨hWF, hMore⟩ := strokes_spec hl hCount hFirst
    rw [List.foldl_cons, type_eq hl hCount hFirst, List.flatMap_cons, List.foldl_append]
    exact ih hWF hMore hRest

theorem TypesRun.typing (h : l.TypesRun index edits) (hl : l.WF) (hIndex : index ≤ l.liveOrder.length) :
    ∃ pre block post, Typing l (edits.foldl type l) index (l.typedItems edits) pre block post := by
  obtain ⟨pre, post, hStart⟩ := typing_start hl hIndex
  obtain ⟨block, hTyping⟩ := hStart.strokes h
  refine ⟨pre, block, post, ?_⟩
  rw [types_eq hl hIndex h]
  exact hTyping

end FugueList

section Runs

open FugueList

variable [IdBytes]

/-- Two authors who type at one gap, each in one piece and unseen by the other: a list that holds
both runs shows one of them before the other, and so does whatever the merge of the two grows to. -/
theorem runs_do_not_interleave {l : FugueList Element} (hl : l.WF) {index : Nat}
    (hIndex : index ≤ l.liveOrder.length) {mine theirs : List Typed}
    (hMine : l.TypesRun index mine) (hTheirs : l.TypesRun index theirs)
    (hApart : ∀ x ∈ (l.typedItems mine).map Prod.fst, x ∉ (l.typedItems theirs).map Prod.fst) :
    (∀ m : FugueList Element, m.WF → m.Holds (l.typedItems mine) → m.Holds (l.typedItems theirs) →
      Apart m.liveOrder (l.typedItems mine) (l.typedItems theirs)) ∧
    ∀ changes : List (Change Element),
      ((mine.foldl type l).merge (theirs.foldl type l)).AgreesAll changes →
      let m := changes.foldl applyChange ((mine.foldl type l).merge (theirs.foldl type l))
      m.WF ∧ m.Holds (l.typedItems mine) ∧ m.Holds (l.typedItems theirs) := by
  obtain ⟨pre, block, post, hA⟩ := hMine.typing hl hIndex
  obtain ⟨pre', block', post', hB⟩ := hTheirs.typing hl hIndex
  constructor
  · intro m hm hHolds hHolds'
    by_cases hNone : l.typedItems mine = []
    · exact .inl fun x hx => by simp [hNone] at hx
    by_cases hNone' : l.typedItems theirs = []
    · exact .inl fun x _ y hy => by simp [hNone'] at hy
    rw [hm.liveOrder_eq]
    exact (apart_of_spreads hm (hA.spreads hNone) (hB.spreads hNone') hApart hHolds hHolds').filter _
  · intro changes hAgrees
    have hSame (id : Stamp) (held anchor : Anchor)
        (hHeld : (mine.foldl type l).anchorOf id = some held)
        (hAnchor : (theirs.foldl type l).anchorOf id = some anchor) : held = anchor := by
      rw [anchorOf_eq] at hHeld hAnchor
      by_cases hIn : id ∈ (l.typedItems mine).map Prod.fst
      · obtain ⟨e, he, rfl⟩ := List.mem_map.mp hIn
        rw [hB.other e.1 (hApart e.1 hIn), (hA.held e he).2] at hAnchor
        cases hAnchor
      · rw [hA.other id hIn] at hHeld
        by_cases hIn' : id ∈ (l.typedItems theirs).map Prod.fst
        · obtain ⟨e, he, rfl⟩ := List.mem_map.mp hIn'
          rw [(hB.held e he).2] at hHeld
          cases hHeld
        · rw [hB.other id hIn', hHeld] at hAnchor
          exact Option.some.inj hAnchor
    obtain ⟨hWF, hKeeps⟩ := applyChange_keeps hA.wf (c := .merge (theirs.foldl type l))
      ⟨hB.wf, hSame⟩
    have hOther := merge_keeps_other hA.wf hB.wf hSame
    obtain ⟨hm, hGrown⟩ := applyChanges_keeps hWF hAgrees
    exact ⟨hm, fun e he => hGrown _ _ (hKeeps _ _ (hA.held e he).1),
      fun e he => hGrown _ _ (hOther _ _ (hB.held e he).1)⟩

end Runs

section Examples

open FugueList

local instance typingIdBytes : IdBytes := IdBytes.spelled

/-- An item and a deleted one after it. -/
def gapped : FugueList Element :=
  (((FugueList.new (.fromBytes 0)).insertAt ⟨1, ⟨1⟩, 0⟩ (.scalar .null) ⟨none, .right⟩).insertAt
    ⟨2, ⟨1⟩, 0⟩ (.scalar .null) ⟨some ⟨1, ⟨1⟩, 0⟩, .right⟩).deleteId ⟨2, ⟨1⟩, 0⟩

theorem gapped_wf : gapped.WF :=
  (((wf_new (.fromBytes 0)).insertAt _ _ _).wf.insertAt _ _ _).wf.deleteId _ |>.wf

def typedRight : List Typed := [.text 1 ⟨3, ⟨1⟩, 0⟩ ['a', 'b']]

def typedLeft : List Typed :=
  [.item 1 ⟨3, ⟨2⟩, 0⟩ (.scalar .null), .item 1 ⟨4, ⟨2⟩, 0⟩ (.scalar .null)]

/-- Two codepoints typed left to right, and two items typed right to left, at one gap. -/
theorem runs_do_not_interleave_gapped :
    (∀ m : FugueList Element, m.WF → m.Holds (gapped.typedItems typedRight) →
      m.Holds (gapped.typedItems typedLeft) →
      Apart m.liveOrder (gapped.typedItems typedRight) (gapped.typedItems typedLeft)) ∧
    ((typedRight.foldl type gapped).merge (typedLeft.foldl type gapped)).liveOrder =
      [⟨1, ⟨1⟩, 0⟩, ⟨3, ⟨1⟩, 0⟩, ⟨4, ⟨1⟩, 0⟩, ⟨4, ⟨2⟩, 0⟩, ⟨3, ⟨2⟩, 0⟩] :=
  have hRight : gapped.TypesRun 1 typedRight := by decide +kernel
  have hLeft : gapped.TypesRun 1 typedLeft := by decide +kernel
  ⟨(runs_do_not_interleave gapped_wf (by decide +kernel) hRight hLeft (by decide +kernel)).1,
    by decide +kernel⟩

end Examples

end CrdtSync
