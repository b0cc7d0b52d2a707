import CrdtSync.Core.FuguePlacement

/-!
# Sequences that grow

A list that keeps every id it holds at its anchor keeps the order they are in, whatever else it
takes in, deletes or moves away. Only a second claim on a held id can re-seat it.
-/

namespace CrdtSync

open Lib Runs SeqValue
open Std (ExtTreeMap)

namespace FugueList

variable {V : Type} {l m n : FugueList V}

/-- Every id in sequence order, deleted and moved-away ids included. -/
def sequence (l : FugueList V) : List Stamp := l.treeOrder.flatMap Span.ids

theorem WF.sequence_eq (h : l.WF) : l.sequence = PlainList.order l.plain :=
  h.refines.order_eq.1.symm

theorem WF.sequence_nodup (h : l.WF) : l.sequence.Nodup := by
  rw [h.sequence_eq]
  exact h.refines.order_nodup

theorem WF.liveOrder_eq (h : l.WF) : l.liveOrder = l.sequence.filter fun id => !l.hidden id := by
  rw [h.refines.liveOrder_eq, PlainList.liveOrder, h.sequence_eq]
  exact List.filter_congr fun id _ => h.refines.live_iff

/-- Every id of `l` is in `m` at the anchor it has in `l`. -/
def Keeps (l m : FugueList V) : Prop :=
  ∀ id a, l.anchorOf id = some a → m.anchorOf id = some a

theorem Keeps.refl (l : FugueList V) : Keeps l l := fun _ _ h => h

theorem Keeps.trans (h : Keeps l m) (h' : Keeps m n) : Keeps l n :=
  fun id a hAnchor => h' id a (h id a hAnchor)

/-- What is kept stays in order. -/
theorem Keeps.sequence (h : Keeps l m) (hl : l.WF) (hm : m.WF) : l.sequence.Sublist m.sequence := by
  have hChild (p : Option Stamp) (side : Side) :
      (PlainList.childrenOf l.plain p side).Sublist (PlainList.childrenOf m.plain p side) := by
    refine List.sublist_of_subperm_of_pairwise
      (List.subperm_of_subset (childrenOf_nodup p side) fun id hIn => ?_)
      (childrenOf_sorted p side) (childrenOf_sorted p side)
    exact hm.refines.mem_childrenOf.mpr (h id _ (hl.refines.mem_childrenOf.mp hIn))
  have hGrows : Forest.Grows (PlainList.tree l.plain) (PlainList.tree m.plain) :=
    ⟨fun p => hChild p .left, fun p => hChild p .right⟩
  rw [hl.sequence_eq, hm.sequence_eq]
  exact hm.refines.walks_plain.sublist hGrows hl.refines.walks_plain (hGrows.children none)

variable [SeqValue V]

/-- An operation on a list, local or a peer's. -/
inductive Change (V : Type)
  | insert (index : Nat) (value : V) (stamp : Stamp)
  | insertAt (id : Stamp) (value : V) (anchor : Anchor)
  | reseat (id : Stamp) (value : V) (anchor : Anchor)
  | rejoin (id : Stamp) (value : V) (anchor : Anchor)
  | delete (index : Nat)
  | deleteId (id : Stamp)
  | setMovedAway (id : Stamp) (away : Bool)
  | merge (other : FugueList V)

def applyChange (l : FugueList V) : Change V → FugueList V
  | .insert index value stamp => l.insert index value stamp
  | .insertAt id value anchor => l.insertAt id value anchor
  | .reseat id value anchor => l.reseat id value anchor
  | .rejoin id value anchor => l.rejoin id value anchor
  | .delete index => l.delete index
  | .deleteId id => l.deleteId id
  | .setMovedAway id away => l.setMovedAway id away
  | .merge other => l.merge other

/-- A claim on an id the list holds is at the anchor the list holds it at, and what is merged in is
a well-formed list. -/
def Agrees (l : FugueList V) : Change V → Prop
  | .insertAt id _ anchor | .reseat id _ anchor | .rejoin id _ anchor =>
    ∀ held, l.anchorOf id = some held → held = anchor
  | .merge other => other.WF ∧
    ∀ id held anchor, l.anchorOf id = some held → other.anchorOf id = some anchor → held = anchor
  | _ => True

def AgreesAll (l : FugueList V) : List (Change V) → Prop
  | [] => True
  | c :: changes => l.Agrees c ∧ (l.applyChange c).AgreesAll changes

omit [SeqValue V] in
theorem keeps_of_updates {x : Stamp} {f : Option (Cell V) → Option (Cell V)}
    (h : Updates l m x f) (hf : ∀ c, l.cellAt x = some c →
      ∃ c', f (some c) = some c' ∧ c'.anchor = c.anchor) : Keeps l m := by
  intro id a hAnchor
  rw [anchorOf_eq] at hAnchor ⊢
  obtain ⟨c, hCell, rfl⟩ := Option.map_eq_some_iff.mp hAnchor
  rw [h.cell]
  split
  next hx =>
    subst hx
    obtain ⟨c', hc', hSame⟩ := hf c hCell
    rw [hCell, hc']
    exact congrArg some hSame
  next => rw [hCell]; rfl

omit [SeqValue V] in
theorem seat_anchor (value : V) (c : Cell V) :
    ∃ c', Cell.seat value c.anchor (some c) = some c' ∧ c'.anchor = c.anchor := by
  obtain ⟨anchor, item⟩ := c
  cases item <;> exact ⟨_, rfl, rfl⟩

theorem applyChange_keeps (hl : l.WF) {c : Change V} (hAgrees : l.Agrees c) :
    (l.applyChange c).WF ∧ Keeps l (l.applyChange c) := by
  have hHeld {id : Stamp} {anchor : Anchor} (h : ∀ held, l.anchorOf id = some held → held = anchor)
      {c : Cell V} (hCell : l.cellAt id = some c) : c.anchor = anchor :=
    h c.anchor (by rw [anchorOf_eq, hCell]; rfl)
  cases c with
  | insert index value stamp =>
    simp only [applyChange, FugueList.insert]
    split
    · exact ⟨hl, .refl l⟩
    next hFresh =>
      have hUpdates := hl.insertAt stamp value (l.place index)
      refine ⟨hUpdates.wf, keeps_of_updates hUpdates fun c hCell => absurd ?_ hFresh⟩
      rw [hl.refines.contains_eq, ← ExtTreeMap.isSome_getElem?_eq_contains, hl.refines.cell, hCell]
      rfl
  | insertAt id value anchor =>
    have hUpdates := hl.insertAt id value anchor
    refine ⟨hUpdates.wf, keeps_of_updates hUpdates fun c hCell => ?_⟩
    obtain rfl := hHeld hAgrees hCell
    obtain ⟨anchor, item⟩ := c
    cases item <;> dsimp only [Cell.insert] <;> split
    all_goals first | exact seat_anchor value _ | exact ⟨_, rfl, rfl⟩
  | reseat id value anchor =>
    have hUpdates := hl.reseat id value anchor
    refine ⟨hUpdates.wf, keeps_of_updates hUpdates fun c hCell => ?_⟩
    obtain rfl := hHeld hAgrees hCell
    rw [Cell.reseat]
    split
    · exact ⟨c, rfl, rfl⟩
    · exact seat_anchor value c
  | rejoin id value anchor =>
    have hUpdates := hl.rejoin id value anchor
    refine ⟨hUpdates.wf, keeps_of_updates hUpdates fun c hCell => ?_⟩
    obtain rfl := hHeld hAgrees hCell
    rw [Cell.rejoin]
    split
    · exact ⟨c, rfl, rfl⟩
    · simp only [min_self]
      exact seat_anchor value c
  | delete index =>
    simp only [applyChange, FugueList.delete]
    split
    · exact ⟨(hl.deleteId _).wf, keeps_of_updates (hl.deleteId _) fun c _ => ⟨_, rfl, rfl⟩⟩
    · exact ⟨hl, .refl l⟩
  | deleteId id => exact ⟨(hl.deleteId id).wf, keeps_of_updates (hl.deleteId id) fun c _ => ⟨_, rfl, rfl⟩⟩
  | setMovedAway id away =>
    exact ⟨(hl.setMovedAway id away).wf,
      keeps_of_updates (hl.setMovedAway id away) fun c _ => ⟨_, rfl, rfl⟩⟩
  | merge other =>
    obtain ⟨hOther, hSame⟩ := hAgrees
    obtain ⟨hWF, hCell⟩ := hl.merge hOther
    refine ⟨hWF, fun id a hAnchor => ?_⟩
    have hBoth := hSame id a
    rw [anchorOf_eq] at hAnchor hBoth ⊢
    obtain ⟨⟨held, item⟩, hHeld, rfl⟩ := Option.map_eq_some_iff.mp hAnchor
    rw [applyChange, hCell, hHeld]
    cases hCell' : other.cellAt id with
    | none => rfl
    | some c =>
      obtain ⟨anchor, claim⟩ := c
      obtain rfl := hBoth anchor hAnchor (by rw [anchorOf_eq, hCell']; rfl)
      cases item with
      | none => rfl
      | some item =>
        cases claim with
        | none => rfl
        | some claim =>
          simp only [Cell.merge]
          split
          · rw [if_neg (lt_irrefl _)]
            rfl
          · split <;> rfl

theorem applyChanges_keeps (hl : l.WF) {changes : List (Change V)} (hAgrees : l.AgreesAll changes) :
    (changes.foldl applyChange l).WF ∧ Keeps l (changes.foldl applyChange l) := by
  induction changes generalizing l with
  | nil => exact ⟨hl, .refl l⟩
  | cons c changes ih =>
    obtain ⟨hFirst, hRest⟩ := hAgrees
    obtain ⟨hWF, hKeeps⟩ := applyChange_keeps hl hFirst
    obtain ⟨hWF', hKeeps'⟩ := ih hWF hRest
    exact ⟨hWF', hKeeps.trans hKeeps'⟩

/-- What is merged in is kept where the list does not hold it elsewhere. -/
theorem merge_keeps_other (hl : l.WF) (hm : m.WF)
    (hSame : ∀ id held anchor, l.anchorOf id = some held → m.anchorOf id = some anchor →
      held = anchor) : Keeps m (l.merge m) := by
  intro id a hAnchor
  cases hHeld : l.anchorOf id with
  | some held =>
    obtain rfl := hSame id held a hHeld hAnchor
    exact (applyChange_keeps hl (c := .merge m) ⟨hm, hSame⟩).2 id held hHeld
  | none =>
    rw [anchorOf_eq] at hAnchor hHeld ⊢
    obtain ⟨c, hCell, rfl⟩ := Option.map_eq_some_iff.mp hAnchor
    rw [(hl.merge hm).2, hCell, Option.map_eq_none_iff.mp hHeld]
    rfl

end FugueList

end CrdtSync
