import CrdtSync.Core.FugueList

/-!
# The plain sequence

What the run-compressed sequence is for: one cell an id, holding the anchor and,
until the id is deleted, the value. Every operation rewrites one cell, a merge
folds the two lists cell by cell, and the order is the walk of the anchor tree
with siblings in stamp order.
-/

namespace CrdtSync

open Lib SeqValue
open Std (ExtTreeMap)

structure Item (V : Type) where
  value : V
  movedAway : Bool

/-- An id's anchor, with its value unless it is deleted. -/
structure Cell (V : Type) where
  anchor : Anchor
  item : Option (Item V)

namespace Cell

variable {V : Type}

/-- Install a ranked claim: a deleted id takes only the position. -/
def seat (value : V) (anchor : Anchor) : Option (Cell V) → Option (Cell V)
  | some ⟨_, none⟩ => some ⟨anchor, none⟩
  | some ⟨_, some _⟩ | none => some ⟨anchor, some ⟨value, false⟩⟩

def delete (held : Option (Cell V)) : Option (Cell V) := held.map fun c => { c with item := none }

def setMovedAway (away : Bool) (held : Option (Cell V)) : Option (Cell V) :=
  held.map fun c => { c with item := c.item.map fun i => { i with movedAway := away } }

variable [SeqValue V]

/-- The smaller rank takes the id; against a deleted id only the anchors are ranked. -/
def insert (value : V) (anchor : Anchor) (held : Option (Cell V)) : Option (Cell V) :=
  match held with
  | none => seat value anchor held
  | some ⟨taken, some item⟩ =>
    if FugueList.claimRank value anchor < FugueList.claimRank item.value taken then
      seat value anchor held
    else held
  | some ⟨taken, none⟩ => if anchor < taken then seat value anchor held else held

def holdsScalar : Option (Cell V) → Bool
  | some ⟨_, some item⟩ => kind item.value == .scalar
  | _ => false

def reseat (value : V) (anchor : Anchor) (held : Option (Cell V)) : Option (Cell V) :=
  if holdsScalar held then held else seat value anchor held

def rejoin (value : V) (anchor : Anchor) (held : Option (Cell V)) : Option (Cell V) :=
  if holdsScalar held then held
  else seat value (match held with | some c => min anchor c.anchor | none => anchor) held

/-- Fold a peer's cell in. -/
def merge (other : Cell V) (held : Option (Cell V)) : Option (Cell V) :=
  match held, other with
  | none, other => some other
  | some ⟨taken, none⟩, _ => some ⟨taken, none⟩
  | some ⟨taken, some _⟩, ⟨_, none⟩ => some ⟨taken, none⟩
  | some ⟨taken, some item⟩, ⟨anchor, some claim⟩ =>
    if (kind claim.value).tag = (kind item.value).tag ∧
        encoded claim.value = encoded item.value then
      some ⟨if anchor < taken then anchor else taken,
        some { item with
          value := if kind item.value = .scalar then item.value
            else SeqValue.merge item.value claim.value }⟩
    else if FugueList.claimRank claim.value anchor < FugueList.claimRank item.value taken then
      seat claim.value anchor held
    else held

end Cell

/-- A sequence with one cell for every id it has ever held. -/
abbrev PlainList (V : Type) := ExtTreeMap Stamp (Cell V) compare

namespace PlainList

variable {V : Type} (cells : PlainList V)

def childrenOf (parent : Option Stamp) (side : Side) : List Stamp :=
  (cells.toList.filter fun e => e.2.anchor = ⟨parent, side⟩).map (·.1)

def tree : Forest Stamp where
  left p := childrenOf cells p .left
  right p := childrenOf cells p .right

/-- The depth-first walk of the anchor tree, deleted ids included. -/
def order : List Stamp := (tree cells).order cells.size

def live (id : Stamp) : Bool :=
  match cells[id]? with
  | some ⟨_, some item⟩ => !item.movedAway
  | _ => false

def liveOrder : List Stamp := (order cells).filter (live cells)

/-- The ids around the gap before live `index`. -/
def gap : List Stamp → Nat → Option Stamp → Option Stamp × Option Stamp
  | [], _, left => (left, none)
  | id :: _, 0, left => (left, some id)
  | id :: order, index + 1, _ => gap order (if live cells id then index else index + 1) (some id)

def placement : Option Stamp → Option Stamp → Anchor
  | some left, right =>
    if childrenOf cells (some left) .right = [] then ⟨some left, .right⟩
    else match right with
      | some right => ⟨some right, .left⟩
      | none => ⟨some left, .right⟩
  | none, some right => ⟨some right, .left⟩
  | none, none => ⟨none, .right⟩

def place (index : Nat) : Anchor :=
  match gap cells (order cells) index none with
  | (left, right) => placement cells left right

def insert [SeqValue V] (index : Nat) (value : V) (stamp : Stamp) : PlainList V :=
  if cells.contains stamp then cells
  else cells.alter stamp (Cell.insert value (place cells index))

def delete (index : Nat) : PlainList V :=
  match (liveOrder cells)[index]? with
  | some id => cells.alter id Cell.delete
  | none => cells

def merge [SeqValue V] (other : PlainList V) : PlainList V :=
  other.toList.foldl (fun cells (id, cell) => cells.alter id (Cell.merge cell)) cells

end PlainList

end CrdtSync
