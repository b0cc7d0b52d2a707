import CrdtSync.Core.Stamp
import CrdtSync.Lib.OrderedMap

/-!
# The move log

Tree moves in one stamp-ordered log, folded into a parent relation. A late move
is absorbed by undoing every later one, splicing it in and redoing the rest; a
move that would close a cycle is logged and changes nothing.
-/

namespace CrdtSync

open Std (ExtTreeMap)

abbrev Parents := ExtTreeMap ElementId ElementId compare

structure LogOp where
  stamp : Stamp
  child : ElementId
  parent : ElementId
  prevParent : Option ElementId
deriving DecidableEq

/-- `tree` holds the parents moves override, `base` the ones nodes were created
under. -/
structure TreeMoves where
  tree : Parents
  base : Parents
  log : List LogOp
deriving DecidableEq

namespace TreeMoves

def new : TreeMoves := ⟨∅, ∅, []⟩

/-- Record the parent a node was created under. The first one stays. -/
def setBase (m : TreeMoves) (child parent : ElementId) : TreeMoves :=
  if m.base.contains child then m else { m with base := m.base.insert child parent }

def parentOf (m : TreeMoves) (child : ElementId) : Option ElementId :=
  m.tree[child]?.or m.base[child]?

def isAncestorLoop (m : TreeMoves) (a : ElementId) : Nat → ElementId → Bool
  | 0, _ => true
  | steps + 1, cur =>
    match m.parentOf cur with
    | some p => if p = a then true else m.isAncestorLoop a steps p
    | none => false

/-- Whether `a` is an ancestor of `b` in the effective tree. -/
def isAncestor (m : TreeMoves) (a b : ElementId) : Bool :=
  m.isAncestorLoop a (m.tree.size + m.base.size + 1) b

/-- Apply one move to the live tree and log it. -/
def redo (m : TreeMoves) (stamp : Stamp) (child parent : ElementId) : TreeMoves where
  tree :=
    if child ≠ parent ∧ m.isAncestor child parent = false then m.tree.insert child parent
    else m.tree
  base := m.base
  log := m.log ++ [⟨stamp, child, parent, m.tree[child]?⟩]

/-- Restore the parent the child held before the move applied. -/
def undo (m : TreeMoves) (op : LogOp) : TreeMoves :=
  { m with tree := match op.prevParent with
    | some p => m.tree.insert op.child p
    | none => m.tree.erase op.child }

def before (m : TreeMoves) (stamp : Stamp) : List LogOp := m.log.takeWhile fun op => op.stamp < stamp

def later (m : TreeMoves) (stamp : Stamp) : List LogOp := m.log.dropWhile fun op => op.stamp < stamp

def rewind (m : TreeMoves) (stamp : Stamp) : TreeMoves :=
  { (m.later stamp).reverse.foldl undo m with log := m.before stamp }

def redoAll (m : TreeMoves) (ops : List LogOp) : TreeMoves :=
  ops.foldl (fun m op => m.redo op.stamp op.child op.parent) m

/-- Record a move; a stamp already in the log is a no-op. -/
def apply (m : TreeMoves) (stamp : Stamp) (child parent : ElementId) : TreeMoves :=
  if (m.later stamp).head?.any fun op => op.stamp = stamp then m
  else ((m.rewind stamp).redo stamp child parent).redoAll (m.later stamp)

/-- Withdraw a logged move, if the log holds it. -/
def remove (m : TreeMoves) (stamp : Stamp) (child parent : ElementId) : TreeMoves :=
  if (m.later stamp).head?.any fun op =>
      op.stamp = stamp && op.child = child && op.parent = parent then
    (m.rewind stamp).redoAll (m.later stamp).tail
  else m

end TreeMoves

end CrdtSync
