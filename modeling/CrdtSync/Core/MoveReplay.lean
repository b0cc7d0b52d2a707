import Mathlib.Data.List.TakeWhile
import CrdtSync.Core.TreeMoves
import CrdtSync.Lib.Ancestry

/-!
# The move log as a replay

Undoing and redoing keeps one invariant: the log is in stamp order and the tree is
what its moves give when they are replayed, in order, over the created-under
links. A replayed move never closes a cycle, so over acyclic links the effective
parents are acyclic.
-/

namespace CrdtSync

open Lib
open Std (ExtTreeMap)

/-- The parent a relation records. -/
def parentIn (parents : Parents) (x : ElementId) : Option ElementId := parents[x]?

/-- A logged move without what it displaced. -/
structure Move where
  stamp : Stamp
  child : ElementId
  parent : ElementId
deriving DecidableEq

def LogOp.move (op : LogOp) : Move := ⟨op.stamp, op.child, op.parent⟩

namespace TreeMoves

variable {m : TreeMoves}

def entries (m : TreeMoves) : List Move := m.log.map LogOp.move

def redoMove (m : TreeMoves) (e : Move) : TreeMoves := m.redo e.stamp e.child e.parent

/-- The moves replayed in order over the created-under links. -/
def replay (base : Parents) (moves : List Move) : TreeMoves := moves.foldl redoMove ⟨∅, base, []⟩

/-- The log is in stamp order and the tree is its replay. -/
structure Replays (m : TreeMoves) : Prop where
  eq : m = replay m.base m.entries
  sorted : m.entries.Pairwise fun a b => a.stamp < b.stamp

theorem replays_new : new.Replays := ⟨rfl, List.Pairwise.nil⟩

section Replaying

@[simp] theorem redoMove_base (m : TreeMoves) (e : Move) : (m.redoMove e).base = m.base := rfl

@[simp] theorem redoMove_entries (m : TreeMoves) (e : Move) :
    (m.redoMove e).entries = m.entries ++ [e] := by
  simp [entries, redoMove, redo, LogOp.move]

theorem foldl_redoMove_base (moves : List Move) (m : TreeMoves) :
    (moves.foldl redoMove m).base = m.base := by
  induction moves generalizing m with
  | nil => rfl
  | cons e moves ih => exact ih _

theorem foldl_redoMove_entries (moves : List Move) (m : TreeMoves) :
    (moves.foldl redoMove m).entries = m.entries ++ moves := by
  induction moves generalizing m with
  | nil => simp
  | cons e moves ih => rw [List.foldl_cons, ih, redoMove_entries, List.append_assoc, List.singleton_append]

@[simp] theorem replay_base (base : Parents) (moves : List Move) :
    (replay base moves).base = base := foldl_redoMove_base moves _

@[simp] theorem replay_entries (base : Parents) (moves : List Move) :
    (replay base moves).entries = moves := by
  rw [replay, foldl_redoMove_entries]
  rfl

theorem replay_append (base : Parents) (moves later : List Move) :
    replay base (moves ++ later) = later.foldl redoMove (replay base moves) :=
  List.foldl_append

theorem replays_replay {base : Parents} {moves : List Move}
    (h : moves.Pairwise fun a b => a.stamp < b.stamp) : (replay base moves).Replays := by
  refine ⟨?_, ?_⟩
  · rw [replay_base, replay_entries]
  · rwa [replay_entries]

theorem redoAll_eq (m : TreeMoves) (ops : List LogOp) :
    m.redoAll ops = (ops.map LogOp.move).foldl redoMove m := by
  rw [List.foldl_map]
  rfl

end Replaying

section Rewinding

def undoTree (tree : Parents) (op : LogOp) : Parents :=
  match op.prevParent with
  | some p => tree.insert op.child p
  | none => tree.erase op.child

theorem foldl_undo (ops : List LogOp) (m : TreeMoves) :
    ops.foldl undo m = { m with tree := ops.foldl undoTree m.tree } := by
  induction ops generalizing m with
  | nil => rfl
  | cons op ops ih => exact ih _

theorem undoTree_redo (m : TreeMoves) (e : Move) :
    undoTree (m.redoMove e).tree ⟨e.stamp, e.child, e.parent, m.tree[e.child]?⟩ = m.tree := by
  apply ExtTreeMap.ext_getElem?
  intro x
  unfold undoTree redoMove redo
  cases hPrev : m.tree[e.child]? with
  | none =>
    dsimp only
    rw [getElem?_erase_ite]
    by_cases hx : x = e.child
    · rw [if_pos hx, hx, hPrev]
    · rw [if_neg hx]
      split
      · rw [getElem?_insert_ite, if_neg hx]
      · rfl
  | some p =>
    dsimp only
    rw [getElem?_insert_ite]
    by_cases hx : x = e.child
    · rw [if_pos hx, hx, hPrev]
    · rw [if_neg hx]
      split
      · rw [getElem?_insert_ite, if_neg hx]
      · rfl

/-- Undoing what a list of moves logged, last first, brings the tree back. -/
theorem foldl_undoTree_log (moves : List Move) (m : TreeMoves) :
    ∃ ops, (moves.foldl redoMove m).log = m.log ++ ops ∧ ops.map LogOp.move = moves ∧
      ops.reverse.foldl undoTree (moves.foldl redoMove m).tree = m.tree := by
  induction moves generalizing m with
  | nil => exact ⟨[], by simp, rfl, rfl⟩
  | cons e moves ih =>
    obtain ⟨ops, hLog, hMoves, hTree⟩ := ih (m.redoMove e)
    refine ⟨⟨e.stamp, e.child, e.parent, m.tree[e.child]?⟩ :: ops, ?_, ?_, ?_⟩
    · rw [List.foldl_cons, hLog]
      simp [redoMove, redo]
    · rw [List.map_cons, hMoves]
      rfl
    · rw [List.foldl_cons, List.reverse_cons, List.foldl_append, hTree]
      exact undoTree_redo m e

theorem before_append_later (m : TreeMoves) (stamp : Stamp) :
    m.before stamp ++ m.later stamp = m.log := List.takeWhile_append_dropWhile

theorem Replays.sorted_log (h : m.Replays) : m.log.Pairwise fun a b => a.stamp < b.stamp :=
  (List.pairwise_map (R := fun a b : Move => a.stamp < b.stamp)).mp h.sorted

theorem mem_before {stamp : Stamp} {op : LogOp} (h : op ∈ m.before stamp) : op.stamp < stamp := by
  simpa using List.mem_takeWhile_imp h

theorem Replays.mem_later (h : m.Replays) {stamp : Stamp} {op : LogOp}
    (hOp : op ∈ m.later stamp) : stamp ≤ op.stamp := by
  have hSuffix : (m.later stamp).Pairwise fun a b => a.stamp < b.stamp :=
    h.sorted_log.sublist (List.dropWhile_sublist _)
  have hHead : ∀ first ∈ (m.later stamp).head?, stamp ≤ first.stamp := by
    intro first hFirst
    have hNot := List.head?_dropWhile_not (fun op : LogOp => decide (op.stamp < stamp)) m.log
    rw [show m.log.dropWhile _ = m.later stamp from rfl, Option.mem_def.mp hFirst] at hNot
    simpa using hNot
  cases hLater : m.later stamp with
  | nil =>
    rw [hLater] at hOp
    cases hOp
  | cons first rest =>
    rw [hLater] at hOp hSuffix hHead
    rcases List.mem_cons.mp hOp with rfl | hRest
    · exact hHead op rfl
    · exact (hHead first rfl).trans ((List.pairwise_cons.mp hSuffix).1 op hRest).le

theorem Replays.rewind (h : m.Replays) (stamp : Stamp) :
    m.rewind stamp = replay m.base ((m.before stamp).map LogOp.move) := by
  have hSplit : m.entries = (m.before stamp).map LogOp.move ++ (m.later stamp).map LogOp.move := by
    rw [← List.map_append, before_append_later]
    rfl
  have hM : m = ((m.later stamp).map LogOp.move).foldl redoMove
      (replay m.base ((m.before stamp).map LogOp.move)) := by
    rw [← replay_append, ← hSplit]
    exact h.eq
  obtain ⟨ops, hLog, hMoves, hTree⟩ := foldl_undoTree_log ((m.later stamp).map LogOp.move)
    (replay m.base ((m.before stamp).map LogOp.move))
  rw [← hM] at hLog hTree
  -- The replay of the earlier moves logged exactly the earlier part.
  have hLength : (replay m.base ((m.before stamp).map LogOp.move)).log.length =
      (m.before stamp).length := by
    have hEntries := congrArg List.length
      (replay_entries m.base ((m.before stamp).map LogOp.move))
    simpa [entries] using hEntries
  rw [← before_append_later m stamp] at hLog
  obtain ⟨hBefore, hOps⟩ := List.append_inj hLog hLength.symm
  rw [TreeMoves.rewind, foldl_undo, hOps, hTree, hBefore]
  rw [← hBefore]
  have hBase := replay_base m.base ((m.before stamp).map LogOp.move)
  revert hBase hBefore
  generalize replay m.base ((m.before stamp).map LogOp.move) = r
  intro hBefore hBase
  rw [hBefore, ← hBase]

end Rewinding

section Editing

theorem Replays.head_later (h : m.Replays) (stamp : Stamp) (p : LogOp → Bool)
    (hp : ∀ op, p op → op.stamp = stamp) :
    (m.later stamp).head?.any p = true ↔ ∃ op ∈ m.log, p op := by
  constructor
  · intro hHead
    cases hLater : m.later stamp with
    | nil => simp [hLater] at hHead
    | cons first rest =>
      rw [hLater] at hHead
      have hMem : first ∈ m.later stamp := by
        rw [hLater]
        exact List.mem_cons_self
      exact ⟨first, List.dropWhile_subset _ hMem, by simpa using hHead⟩
  · rintro ⟨op, hOp, hTrue⟩
    have hLater : op ∈ m.later stamp := by
      rw [← before_append_later m stamp] at hOp
      rcases List.mem_append.mp hOp with hBefore | hLater
      · exact absurd (hp op hTrue) (mem_before hBefore).ne
      · exact hLater
    cases hEq : m.later stamp with
    | nil =>
      rw [hEq] at hLater
      cases hLater
    | cons first rest =>
      have hSuffix : (m.later stamp).Pairwise fun a b => a.stamp < b.stamp :=
        h.sorted_log.sublist (List.dropWhile_sublist _)
      have hFirst : stamp ≤ first.stamp := h.mem_later (by rw [hEq]; exact List.mem_cons_self)
      rw [hEq] at hLater hSuffix
      rcases List.mem_cons.mp hLater with rfl | hRest
      · simpa using hTrue
      · have hLt := (List.pairwise_cons.mp hSuffix).1 op hRest
        rw [hp op hTrue] at hLt
        exact absurd hLt (not_lt.mpr hFirst)

theorem mem_entries {e : Move} : e ∈ m.entries ↔ ∃ op ∈ m.log, op.move = e := List.mem_map

theorem Replays.apply_fresh (h : m.Replays) {e : Move}
    (hFresh : ∀ other ∈ m.entries, other.stamp ≠ e.stamp) :
    (m.apply e.stamp e.child e.parent).Replays ∧
      (m.apply e.stamp e.child e.parent).base = m.base ∧
      ∀ other, other ∈ (m.apply e.stamp e.child e.parent).entries ↔ other = e ∨ other ∈ m.entries := by
  have hGate : ¬(m.later e.stamp).head?.any (fun op => op.stamp = e.stamp) = true := by
    rw [h.head_later e.stamp _ fun op hOp => of_decide_eq_true hOp]
    rintro ⟨op, hOp, hStamp⟩
    exact hFresh op.move (mem_entries.mpr ⟨op, hOp, rfl⟩) (of_decide_eq_true hStamp)
  have hApply : m.apply e.stamp e.child e.parent = replay m.base
      ((m.before e.stamp).map LogOp.move ++ e :: (m.later e.stamp).map LogOp.move) := by
    rw [TreeMoves.apply, if_neg hGate, h.rewind, redoAll_eq, replay_append]
    rfl
  rw [hApply]
  refine ⟨replays_replay ?_, replay_base .., fun other => ?_⟩
  · have hOld := h.sorted
    rw [entries, ← before_append_later m e.stamp, List.map_append, List.pairwise_append] at hOld
    refine List.pairwise_append.mpr ⟨hOld.1, List.pairwise_cons.mpr ⟨?_, hOld.2.1⟩, ?_⟩
    · intro other hOther
      obtain ⟨op, hOp, rfl⟩ := List.mem_map.mp hOther
      have hLog : op ∈ m.log := List.dropWhile_subset _ hOp
      exact lt_of_le_of_ne (h.mem_later hOp)
        (hFresh op.move (mem_entries.mpr ⟨op, hLog, rfl⟩)).symm
    · intro a ha b hb
      obtain ⟨op, hOp, rfl⟩ := List.mem_map.mp ha
      rcases List.mem_cons.mp hb with rfl | hb
      · exact mem_before hOp
      · exact hOld.2.2 _ ha b hb
  · rw [replay_entries, List.mem_append, List.mem_cons, entries, ← before_append_later m e.stamp,
      List.map_append, List.mem_append]
    tauto

/-- A move at a stamp the log holds is dropped. -/
theorem Replays.apply_held (h : m.Replays) {stamp : Stamp} (child parent : ElementId)
    (hHeld : ∃ other ∈ m.entries, other.stamp = stamp) : m.apply stamp child parent = m := by
  have hGate : (m.later stamp).head?.any (fun op => op.stamp = stamp) = true := by
    rw [h.head_later stamp _ fun op hOp => of_decide_eq_true hOp]
    obtain ⟨other, hOther, hStamp⟩ := hHeld
    obtain ⟨op, hOp, rfl⟩ := mem_entries.mp hOther
    exact ⟨op, hOp, decide_eq_true hStamp⟩
  rw [TreeMoves.apply, if_pos hGate]

/-- A withdrawn move leaves the log and the rest is replayed. -/
theorem Replays.remove (h : m.Replays) (e : Move) :
    (m.remove e.stamp e.child e.parent).Replays ∧
      (m.remove e.stamp e.child e.parent).base = m.base ∧
      ∀ other, other ∈ (m.remove e.stamp e.child e.parent).entries ↔ other ∈ m.entries ∧ other ≠ e := by
  have hHead := h.head_later e.stamp
    (fun op => op.stamp = e.stamp && op.child = e.child && op.parent = e.parent)
    (by simp only [Bool.and_eq_true, decide_eq_true_eq]; exact fun op hOp => hOp.1.1)
  have hMove : ∀ op : LogOp, (decide (op.stamp = e.stamp) && decide (op.child = e.child) &&
      decide (op.parent = e.parent)) = true ↔ op.move = e := by
    intro op
    simp only [Bool.and_eq_true, decide_eq_true_eq, and_assoc]
    cases e
    simp [LogOp.move]
  by_cases hGate : (m.later e.stamp).head?.any (fun op =>
      op.stamp = e.stamp && op.child = e.child && op.parent = e.parent) = true
  · rw [TreeMoves.remove, if_pos hGate, h.rewind, redoAll_eq, ← replay_append, ← List.map_append]
    obtain ⟨first, rest, hLater⟩ : ∃ first rest, m.later e.stamp = first :: rest := by
      cases hLater : m.later e.stamp with
      | nil => simp [hLater] at hGate
      | cons first rest => exact ⟨first, rest, rfl⟩
    have hFirst : first.move = e := by
      rw [hLater] at hGate
      exact (hMove first).mp (by simpa using hGate)
    have hSorted := h.sorted
    have hEntries : m.entries = (m.before e.stamp).map LogOp.move ++ e :: rest.map LogOp.move := by
      rw [entries, ← before_append_later m e.stamp, hLater, List.map_append, List.map_cons, hFirst]
    rw [hEntries] at hSorted
    have hParts := List.pairwise_append.mp hSorted
    have hTail := List.pairwise_cons.mp hParts.2.1
    rw [hLater, List.tail_cons]
    refine ⟨replays_replay ?_, replay_base .., fun other => ?_⟩
    · rw [List.map_append]
      refine List.pairwise_append.mpr ⟨hParts.1, hTail.2, fun a ha b hb => ?_⟩
      exact hParts.2.2 a ha b (List.mem_cons_of_mem _ hb)
    · rw [replay_entries, List.map_append, hEntries, List.mem_append, List.mem_append,
        List.mem_cons]
      constructor
      · rintro (hBefore | hRest)
        · exact ⟨.inl hBefore, fun hEq => (hParts.2.2 other hBefore e List.mem_cons_self).ne (hEq ▸ rfl)⟩
        · exact ⟨.inr (.inr hRest), fun hEq => (hTail.1 other hRest).ne (hEq ▸ rfl)⟩
      · rintro ⟨hBefore | rfl | hRest, hNe⟩
        · exact .inl hBefore
        · exact absurd rfl hNe
        · exact .inr hRest
  · rw [TreeMoves.remove, if_neg hGate]
    refine ⟨h, rfl, fun other => ⟨fun hOther => ⟨hOther, ?_⟩, And.left⟩⟩
    rintro rfl
    obtain ⟨op, hOp, hEq⟩ := mem_entries.mp hOther
    exact hGate (hHead.mpr ⟨op, hOp, (hMove op).mpr hEq⟩)

/-- Two replays over the same links that log the same moves are one. -/
theorem Replays.unique {m' : TreeMoves} (h : m.Replays) (h' : m'.Replays)
    (hBase : m.base = m'.base) (hEntries : ∀ e, e ∈ m.entries ↔ e ∈ m'.entries) : m = m' := by
  have hNodup : ∀ {m : TreeMoves}, m.Replays → m.entries.Nodup :=
    fun h => h.sorted.imp fun {a b} hLt (hEq : a = b) => hLt.ne (congrArg Move.stamp hEq)
  have hPerm : m.entries.Perm m'.entries :=
    (List.perm_ext_iff_of_nodup (hNodup h) (hNodup h')).mpr hEntries
  have hEq : m.entries = m'.entries :=
    hPerm.eq_of_pairwise (fun a b _ _ hab hba => absurd hab hba.asymm) h.sorted h'.sorted
  rw [h.eq, h'.eq, hBase, hEq]

end Editing

section Acyclicity

theorem parentOf_redo (m : TreeMoves) (e : Move) :
    (m.redoMove e).parentOf =
      if e.child ≠ e.parent ∧ m.isAncestor e.child e.parent = false then
        Function.update m.parentOf e.child (some e.parent)
      else m.parentOf := by
  unfold redoMove redo
  split
  · funext x
    unfold parentOf
    dsimp only
    rw [getElem?_insert_ite]
    by_cases hx : x = e.child
    · rw [if_pos hx, hx, Function.update_self]
      rfl
    · rw [if_neg hx, Function.update_of_ne hx]
  · rfl

def children (m : TreeMoves) : Finset ElementId := m.tree.keys.toFinset ∪ m.base.keys.toFinset

theorem mem_children {x : ElementId} (h : m.parentOf x ≠ none) : x ∈ m.children := by
  rw [children, Finset.mem_union, List.mem_toFinset, List.mem_toFinset, ExtTreeMap.mem_keys,
    ExtTreeMap.mem_keys, ExtTreeMap.mem_iff_isSome_getElem?, ExtTreeMap.mem_iff_isSome_getElem?]
  unfold parentOf at h
  cases hTree : m.tree[x]? with
  | some p => exact .inl rfl
  | none =>
    rw [hTree, Option.none_or] at h
    exact .inr (Option.isSome_iff_ne_none.mpr h)

theorem card_children_le (m : TreeMoves) : m.children.card ≤ m.tree.size + m.base.size := by
  refine (Finset.card_union_le _ _).trans (Nat.add_le_add ?_ ?_)
  · exact (List.toFinset_card_le _).trans_eq ExtTreeMap.length_keys
  · exact (List.toFinset_card_le _).trans_eq ExtTreeMap.length_keys

theorem isAncestorLoop_iff {a : ElementId} {steps : Nat} {cur : ElementId}
    (hEnds : ascend m.parentOf steps cur = none) :
    m.isAncestorLoop a steps cur = true ↔ Above m.parentOf cur a := by
  induction steps generalizing cur with
  | zero => cases hEnds
  | succ steps ih =>
    unfold isAncestorLoop
    cases hUp : m.parentOf cur with
    | none => simpa using Above.not_of_orphan hUp
    | some p =>
      rw [ascend_succ, hUp, Option.bind_some] at hEnds
      rw [Above.iff_parent hUp]
      dsimp only
      by_cases hp : p = a
      · simp [hp]
      · rw [if_neg hp, ih hEnds]
        simp [hp]

theorem isAncestor_iff (h : Acyclic m.parentOf) (a b : ElementId) :
    m.isAncestor a b = true ↔ Above m.parentOf b a := by
  refine isAncestorLoop_iff (ascend_eq_none_of_le ?_ (h.ascend_eq_none m.children
    (fun x => mem_children) b))
  exact Nat.succ_le_succ m.card_children_le

theorem acyclic_redoMove (h : Acyclic m.parentOf) (e : Move) : Acyclic (m.redoMove e).parentOf := by
  rw [parentOf_redo]
  split
  · rename_i hTakes
    refine h.hang hTakes.1 fun hAbove => ?_
    rw [(isAncestor_iff h _ _).mpr hAbove] at hTakes
    exact absurd hTakes.2 (by decide)
  · exact h

theorem acyclic_replay {base : Parents} (h : Acyclic (parentIn base)) (moves : List Move) :
    Acyclic (replay base moves).parentOf := by
  have hBare : (⟨∅, base, []⟩ : TreeMoves).parentOf = parentIn base := by
    funext x
    simp [parentOf, parentIn]
  have hFold : ∀ m : TreeMoves, Acyclic m.parentOf → Acyclic (moves.foldl redoMove m).parentOf := by
    induction moves with
    | nil => exact fun m hm => hm
    | cons e moves ih => exact fun m hm => ih _ (acyclic_redoMove hm e)
  exact hFold _ (hBare ▸ h)

theorem Replays.acyclic (h : m.Replays) (hBase : Acyclic (parentIn m.base)) :
    Acyclic m.parentOf := by
  rw [h.eq]
  exact acyclic_replay hBase _

theorem Replays.tree_logged (h : m.Replays) {x y : ElementId} (hTree : m.tree[x]? = some y) :
    ∃ e ∈ m.entries, e.child = x ∧ e.parent = y := by
  have hFold : ∀ (moves : List Move) (m : TreeMoves), (moves.foldl redoMove m).tree[x]? = some y →
      m.tree[x]? = some y ∨ ∃ e ∈ moves, e.child = x ∧ e.parent = y := by
    intro moves
    induction moves with
    | nil => exact fun m hm => .inl hm
    | cons e moves ih =>
      intro m hm
      rcases ih _ hm with hOld | ⟨other, hOther, hEdge⟩
      · unfold redoMove redo at hOld
        dsimp only at hOld
        split at hOld
        · rw [getElem?_insert_ite] at hOld
          split at hOld
          · rename_i hx
            exact .inr ⟨e, List.mem_cons_self, hx.symm, Option.some.inj hOld⟩
          · exact .inl hOld
        · exact .inl hOld
      · exact .inr ⟨other, List.mem_cons_of_mem e hOther, hEdge⟩
  rw [h.eq] at hTree
  rcases hFold _ _ hTree with hEmpty | hLogged
  · simp at hEmpty
  · exact hLogged

/-- A node no move names keeps the parent it was created under. -/
theorem Replays.parentOf_unlogged (h : m.Replays) {x : ElementId}
    (hx : ∀ e ∈ m.entries, e.child ≠ x) : m.parentOf x = m.base[x]? := by
  unfold parentOf
  cases hTree : m.tree[x]? with
  | none => rfl
  | some y =>
    obtain ⟨e, he, hChild, -⟩ := h.tree_logged hTree
    exact absurd hChild (hx e he)

end Acyclicity

section Links

/-- A set of ids the logged parents lie in and no link leads out of. -/
structure Encloses (base : Parents) (K : ElementId → Prop) (moves : List Move) : Prop where
  logged : ∀ e ∈ moves, K e.parent
  linked : ∀ x y, K x → base[x]? = some y → K y

/-- New links outside such a set do not change what the replay does. -/
theorem replay_congr {base base' : Parents} {K : ElementId → Prop} {moves : List Move}
    (hK : Encloses base K moves) (hSame : ∀ x, K x → base'[x]? = base[x]?)
    (hOld : Acyclic (parentIn base)) (hNew : Acyclic (parentIn base')) :
    replay base' moves = { replay base moves with base := base' } := by
  have hFold : ∀ (later : List Move) (m m' : TreeMoves), (∀ e ∈ later, K e.parent) →
      m' = { m with base := base' } → m.base = base →
      (∀ x y : ElementId, m.tree[x]? = some y → K y) → Acyclic m.parentOf → Acyclic m'.parentOf →
      later.foldl redoMove m' = { later.foldl redoMove m with base := base' } := by
    intro later
    induction later with
    | nil => exact fun m m' _ hEq _ _ _ _ => hEq
    | cons e later ih =>
      intro m m' hLater hEq hBase hTree hAcyclic hAcyclic'
      -- Inside the set both trees have the same parents, so they agree on who is below whom.
      have hUp : ∀ x, K x → m'.parentOf x = m.parentOf x := by
        intro x hx
        rw [hEq]
        unfold parentOf
        rw [hBase, hSame x hx]
      have hClosed : ∀ x y, K x → m.parentOf x = some y → K y := by
        intro x y hx hxy
        unfold parentOf at hxy
        cases hOver : m.tree[x]? with
        | some p =>
          rw [hOver, Option.some_or] at hxy
          exact Option.some.inj hxy ▸ hTree x p hOver
        | none =>
          rw [hOver, Option.none_or, hBase] at hxy
          exact hK.linked x y hx hxy
      have hDecide : m'.isAncestor e.child e.parent = m.isAncestor e.child e.parent := by
        rw [Bool.eq_iff_iff, isAncestor_iff hAcyclic, isAncestor_iff hAcyclic']
        exact Above.congr_on K hUp hClosed (hLater e List.mem_cons_self)
      refine ih (m.redoMove e) (m'.redoMove e)
        (fun other hOther => hLater other (List.mem_cons_of_mem e hOther)) ?_ hBase ?_
        (acyclic_redoMove hAcyclic e) (acyclic_redoMove hAcyclic' e)
      · unfold redoMove redo
        rw [hDecide, hEq]
      · intro x y hxy
        unfold redoMove redo at hxy
        dsimp only at hxy
        split at hxy
        · rw [getElem?_insert_ite] at hxy
          split at hxy
          · exact Option.some.inj hxy ▸ hLater e List.mem_cons_self
          · exact hTree x y hxy
        · exact hTree x y hxy
  have hBare : ∀ b : Parents, (⟨∅, b, []⟩ : TreeMoves).parentOf = parentIn b := by
    intro b
    funext x
    simp [parentOf, parentIn]
  refine hFold moves ⟨∅, base, []⟩ ⟨∅, base', []⟩ hK.logged rfl rfl ?_ ?_ ?_
  · intro x y hxy
    simp at hxy
  · exact hBare base ▸ hOld
  · exact hBare base' ▸ hNew

theorem setBase_tree (m : TreeMoves) (x y : ElementId) : (m.setBase x y).tree = m.tree := by
  unfold setBase
  split <;> rfl

theorem setBase_entries (m : TreeMoves) (x y : ElementId) : (m.setBase x y).entries = m.entries := by
  unfold setBase
  split <;> rfl

theorem setBase_base (m : TreeMoves) (x y z : ElementId) :
    (m.setBase x y).base[z]? = if z = x then m.base[x]?.or (some y) else m.base[z]? := by
  unfold setBase
  cases hBase : m.base[x]? with
  | none =>
    have hFree : m.base.contains x = false := by
      rw [ExtTreeMap.contains_eq_isSome_getElem?, hBase]
      rfl
    simp only [hFree, Bool.false_eq_true, if_false, getElem?_insert_ite, Option.none_or]
  | some p =>
    have hHeld : m.base.contains x = true := by
      rw [ExtTreeMap.contains_eq_isSome_getElem?, hBase]
      rfl
    simp only [hHeld, if_true, Option.some_or]
    by_cases hz : z = x
    · rw [if_pos hz, hz, hBase]
    · rw [if_neg hz]

/-- A created-under link of an id outside such a set keeps the replay. -/
theorem Replays.setBase (h : m.Replays) {K : ElementId → Prop} (hK : Encloses m.base K m.entries)
    {child parent : ElementId} (hChild : m.base[child]? ≠ none ∨ ¬K child)
    (hOld : Acyclic (parentIn m.base))
    (hNew : Acyclic (parentIn (m.setBase child parent).base)) :
    (m.setBase child parent).Replays := by
  unfold TreeMoves.setBase at hNew ⊢
  by_cases hHeld : m.base.contains child = true
  · rw [if_pos hHeld]
    exact h
  · rw [if_neg hHeld] at hNew ⊢
    have hFresh : ¬K child := by
      refine hChild.resolve_left fun hSome => hHeld ?_
      rw [ExtTreeMap.contains_eq_isSome_getElem?]
      exact Option.isSome_iff_ne_none.mpr hSome
    refine ⟨?_, h.sorted⟩
    have hSame : ∀ x, K x → (m.base.insert child parent)[x]? = m.base[x]? := by
      intro x hx
      rw [getElem?_insert_ite, if_neg]
      rintro rfl
      exact hFresh hx
    have hReplay := replay_congr hK hSame hOld hNew
    rw [← h.eq] at hReplay
    exact hReplay.symm

end Links

end TreeMoves

end CrdtSync
