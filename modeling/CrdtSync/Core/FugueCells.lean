import CrdtSync.Core.FugueRuns
import CrdtSync.Core.PlainList

/-!
# What each operation does to the cells

The cell a run-compressed list holds at an id, and the rewriting every operation
does to it. An operation on one id rewrites that id's cell as the plain list does
and leaves every other cell alone.
-/

namespace CrdtSync

open Lib Runs SeqValue
open Std (ExtTreeMap)

namespace FugueList

variable {V : Type} {l : FugueList V}

/-- What the nodes and the runs say of `id`. -/
def cellAt (l : FugueList V) (id : Stamp) : Option (Cell V) :=
  match l.nodes[seqKey id]? with
  | some n => some ⟨n.anchor, some ⟨n.value, n.movedAway⟩⟩
  | none => (deadAnchorOf l.dead id).map fun anchor => ⟨anchor, none⟩

/-- The runs are well formed and no id is both a node and deleted. -/
structure WF (l : FugueList V) : Prop where
  runs : Runs.WF l.dead
  apart : ∀ id n, l.nodes[seqKey id]? = some n → deadAnchorOf l.dead id = none

theorem wf_new (id : ElementId) : (new id : FugueList V).WF where
  runs := wf_empty
  apart _ _ h := by simp [new] at h

/-- `l'` is `l` with the cell of `id` rewritten by `f`. -/
structure Updates (l l' : FugueList V) (id : Stamp) (f : Option (Cell V) → Option (Cell V)) :
    Prop where
  wf : l'.WF
  cell : ∀ x, l'.cellAt x = if x = id then f (l.cellAt id) else l.cellAt x

theorem Updates.congr {l' : FugueList V} {id : Stamp} {f g : Option (Cell V) → Option (Cell V)}
    (h : Updates l l' id f) (hfg : f (l.cellAt id) = g (l.cellAt id)) : Updates l l' id g :=
  ⟨h.wf, fun x => by rw [h.cell x, hfg]⟩

theorem updates_self (h : l.WF) {id : Stamp} {f : Option (Cell V) → Option (Cell V)}
    (hf : f (l.cellAt id) = l.cellAt id) : Updates l l id f := by
  refine ⟨h, fun x => ?_⟩
  split
  · rename_i hx
    rw [hx, hf]
  · rfl

theorem cellAt_of_node {id : Stamp} {n : Node V} (h : l.nodes[seqKey id]? = some n) :
    l.cellAt id = some ⟨n.anchor, some ⟨n.value, n.movedAway⟩⟩ := by
  rw [cellAt, h]

theorem cellAt_of_no_node {id : Stamp} (h : l.nodes[seqKey id]? = none) :
    l.cellAt id = (deadAnchorOf l.dead id).map fun anchor => ⟨anchor, none⟩ := by
  rw [cellAt, h]

theorem cellAt_eq_none {id : Stamp} :
    l.cellAt id = none ↔ l.nodes[seqKey id]? = none ∧ deadAnchorOf l.dead id = none := by
  unfold cellAt
  split <;> simp_all

/-- Putting a node where no run is writes its cell. -/
theorem WF.insert_node (h : l.WF) {id : Stamp} (hVacant : deadAnchorOf l.dead id = none)
    (n : Node V) :
    Updates l { l with nodes := l.nodes.insert (seqKey id) n } id fun _ =>
      some ⟨n.anchor, some ⟨n.value, n.movedAway⟩⟩ where
  wf := by
    refine ⟨h.runs, fun x m hx => ?_⟩
    simp only [getElem?_insert_ite, seqKey_inj] at hx
    split at hx
    · rename_i hxid
      rw [hxid]
      exact hVacant
    · exact h.apart x m hx
  cell x := by
    unfold cellAt
    by_cases hxid : x = id <;> simp [getElem?_insert_ite, seqKey_inj, hxid]

theorem WF.delete_node (h : l.WF) {id : Stamp} {n : Node V} (hNode : l.nodes[seqKey id]? = some n) :
    Updates l { l with nodes := l.nodes.erase (seqKey id), dead := addDead l.dead id 1 n.anchor } id
      Cell.delete := by
  have hFresh : Fresh l.dead id 1 := by
    refine ⟨h.runs, Nat.one_pos, fun x hx => ?_⟩
    obtain rfl := covers_one.mp hx
    exact h.apart x n hNode
  obtain ⟨hWF, hAnchor⟩ := addDead_spec hFresh n.anchor
  refine ⟨⟨hWF, fun x m hx => ?_⟩, fun x => ?_⟩
  · simp only [getElem?_erase_ite, seqKey_inj] at hx
    split at hx
    · cases hx
    · rename_i hxid
      rw [hAnchor x, overlay, if_neg (fun hCovers => hxid (covers_one.mp hCovers))]
      exact h.apart x m hx
  · unfold cellAt
    simp only [getElem?_erase_ite, seqKey_inj, hAnchor x, overlay]
    by_cases hxid : x = id
    · subst hxid
      simp [covers_head Nat.one_pos, hNode, Cell.delete, chainAnchor]
    · simp [hxid, covers_one]

theorem WF.deleteId (h : l.WF) (id : Stamp) : Updates l (l.deleteId id) id Cell.delete := by
  unfold FugueList.deleteId
  split
  · rename_i hNode
    refine updates_self h ?_
    rw [cellAt_of_no_node hNode]
    cases deadAnchorOf l.dead id <;> rfl
  · rename_i n hNode
    exact h.delete_node hNode

theorem WF.setMovedAway (h : l.WF) (id : Stamp) (away : Bool) :
    Updates l (l.setMovedAway id away) id (Cell.setMovedAway away) := by
  unfold FugueList.setMovedAway
  split
  · rename_i n hNode
    refine (h.insert_node (h.apart id n hNode) _).congr ?_
    rw [cellAt_of_node hNode]
    rfl
  · rename_i hNode
    refine updates_self h ?_
    rw [cellAt_of_no_node hNode]
    cases deadAnchorOf l.dead id <;> rfl

theorem WF.seat (h : l.WF) (id : Stamp) (value : V) (anchor : Anchor) :
    Updates l (l.seat id value anchor) id (Cell.seat value anchor) := by
  unfold FugueList.seat
  dsimp only
  split
  · rename_i dead hTake
    obtain ⟨hWF, hAnchor⟩ := h.runs.takeDead_spec hTake
    have hDead : deadAnchorOf l.dead id ≠ none := by
      rw [ne_eq, ← h.runs.takeDead_eq_none, hTake]
      simp
    obtain ⟨held, hHeld⟩ := Option.ne_none_iff_exists'.mp hDead
    have hNode : l.nodes[seqKey id]? = none := by
      cases hn : l.nodes[seqKey id]? with
      | none => rfl
      | some n => exact absurd (h.apart id n hn) hDead
    -- The lifted list holds the claim as a live node, so deleting it buries it at its anchor.
    have hLifted : FugueList.WF
        { l with nodes := l.nodes.insert (seqKey id) ⟨value, anchor, false⟩, dead } := by
      refine ⟨hWF, fun x m hx => ?_⟩
      simp only [getElem?_insert_ite, seqKey_inj] at hx
      rw [hAnchor x]
      split
      · rfl
      · rename_i hxid
        rw [if_neg hxid] at hx
        exact h.apart x m hx
    have hDelete := hLifted.deleteId id
    refine ⟨hDelete.wf, fun x => ?_⟩
    rw [hDelete.cell x]
    unfold cellAt
    by_cases hxid : x = id
    · subst hxid
      simp [hNode, hHeld, Cell.delete, Cell.seat]
    · simp [getElem?_insert_ite, seqKey_inj, hxid, hAnchor x]
  · rename_i hTake
    have hVacant := h.runs.takeDead_eq_none.mp hTake
    refine (h.insert_node hVacant _).congr ?_
    unfold cellAt
    rw [hVacant]
    cases l.nodes[seqKey id]? <;> rfl

variable [SeqValue V]

theorem WF.insertAt (h : l.WF) (id : Stamp) (value : V) (anchor : Anchor) :
    Updates l (l.insertAt id value anchor) id (Cell.insert value anchor) := by
  have hSeat := h.seat id value anchor
  unfold FugueList.insertAt seated
  cases hNode : l.nodes[seqKey id]? with
  | some n =>
    have hCell := cellAt_of_node hNode
    dsimp only
    split
    · rename_i hTakes
      refine hSeat.congr ?_
      rw [hCell, Cell.insert, if_pos (of_decide_eq_true hTakes)]
    · rename_i hTakes
      refine updates_self h ?_
      rw [hCell, Cell.insert, if_neg fun hLt => hTakes (decide_eq_true hLt)]
  | none =>
    have hCell := cellAt_of_no_node hNode
    cases hDead : deadAnchorOf l.dead id with
    | none =>
      rw [hDead] at hCell
      dsimp only
      rw [if_pos rfl]
      refine hSeat.congr ?_
      rw [hCell]
      rfl
    | some taken =>
      rw [hDead] at hCell
      dsimp only
      split
      · rename_i hTakes
        refine hSeat.congr ?_
        rw [hCell, Option.map_some, Cell.insert, if_pos (of_decide_eq_true hTakes)]
      · rename_i hTakes
        refine updates_self h ?_
        rw [hCell, Option.map_some, Cell.insert, if_neg fun hLt => hTakes (decide_eq_true hLt)]

theorem yieldsToSeated_eq (l : FugueList V) (id : Stamp) :
    l.yieldsToSeated id = Cell.holdsScalar (l.cellAt id) := by
  unfold yieldsToSeated cellAt
  cases l.nodes[seqKey id]? with
  | some n => simp [Cell.holdsScalar]
  | none => cases deadAnchorOf l.dead id <;> simp [Cell.holdsScalar]

omit [SeqValue V] in
theorem anchorOf_eq (l : FugueList V) (id : Stamp) :
    l.anchorOf id = (l.cellAt id).map (·.anchor) := by
  unfold anchorOf cellAt
  cases l.nodes[seqKey id]? with
  | some n => rfl
  | none => cases deadAnchorOf l.dead id <;> rfl

theorem WF.reseat (h : l.WF) (id : Stamp) (value : V) (anchor : Anchor) :
    Updates l (l.reseat id value anchor) id (Cell.reseat value anchor) := by
  unfold FugueList.reseat
  rw [yieldsToSeated_eq]
  split
  · rename_i hScalar
    exact updates_self h (if_pos hScalar)
  · rename_i hScalar
    exact (h.seat id value anchor).congr (if_neg hScalar).symm

theorem WF.rejoin (h : l.WF) (id : Stamp) (value : V) (anchor : Anchor) :
    Updates l (l.rejoin id value anchor) id (Cell.rejoin value anchor) := by
  unfold FugueList.rejoin
  rw [yieldsToSeated_eq, anchorOf_eq]
  split
  · rename_i hScalar
    exact updates_self h (if_pos hScalar)
  · rename_i hScalar
    refine (h.seat id value _).congr ?_
    cases hCell : l.cellAt id <;> simp_all [Cell.rejoin]

end FugueList

end CrdtSync
