import CrdtSync.Core.Restored
import CrdtSync.Lib.Ancestry

/-!
# The undo history

The intention being recorded, and the undo and redo stacks it closes onto, newest first. An
intention is tagged with the origin that recorded it, and an origin takes and pushes its own only.
What a revival re-minted is kept as two maps from the old id to the new one.
-/

namespace CrdtSync

open Lib
open Std (ExtTreeMap)

/-- The inverses of the edits of a single intention, in the order those edits were made. -/
structure Intention (α : Type) where
  origin : Bytes
  steps : List α
  atomic : Bool

/-- Which stack a closing intention lands on. -/
inductive Landing
  | undo
  | redo
deriving DecidableEq

/-- The nesting of explicit groups is the document's `depth`. -/
structure History (α : Type) where
  origin : Option Bytes
  opened : List α
  landing : Landing
  replaying : Bool
  undo : List (Intention α)
  redo : List (Intention α)
  revived : ExtTreeMap (ElementId ×ₗ Stamp) Stamp compare
  revivedElements : Registry ElementId

/-- Follow a map from an id to the one that replaced it, a hop for each entry at most. -/
def follow {κ : Type} [DecidableEq κ] (next : κ → Option κ) : Nat → κ → κ
  | 0, id => id
  | hops + 1, id =>
    match next id with
    | some new => if new ≠ id then follow next hops new else id
    | none => id

namespace History

variable {α : Type}

def empty : History α where
  origin := none
  opened := []
  landing := .undo
  replaying := false
  undo := []
  redo := []
  revived := ∅
  revivedElements := ∅

def recording (h : History α) : Bool := h.origin.isSome

/-- Push the intention in progress, if it recorded anything. A replay always closes a mirror, even
an empty one; a fresh edit drops the redo future of its own origin. -/
def close (h : History α) (atomic : Bool) : History α :=
  if h.opened.isEmpty && !h.replaying then h
  else
    let intention : Intention α := ⟨h.origin.getD [], h.opened, atomic⟩
    let h := { h with opened := [] }
    match h.landing with
    | .undo =>
      let h := if h.replaying then h
        else { h with redo := h.redo.filter fun i => i.origin ≠ intention.origin }
      { h with undo := intention :: h.undo }
    | .redo => { h with redo := intention :: h.redo }

def track (h : History α) (origin : Bytes) : History α :=
  let h := if h.origin ≠ some origin then h.close false else h
  { h with origin := some origin }

def untrack (h : History α) : History α := { h.close false with origin := none }

/-- The id `id` in sequence `seq` came back as. -/
def current (h : History α) (seq : ElementId) (id : Stamp) : Stamp :=
  follow (fun id => h.revived[toLex (seq, id)]?) h.revived.size id

/-- Record that `was` came back as `now` in sequence `seq`. -/
def substitute (h : History α) (seq : ElementId) (was now : Stamp) : History α :=
  if was ≠ now then { h with revived := h.revived.insert (toLex (seq, was)) now } else h

/-- The element `id` came back as. -/
def currentElement (h : History α) (id : ElementId) : ElementId :=
  follow (fun id => h.revivedElements[id]?) h.revivedElements.size id

def substituteElement (h : History α) (was now : ElementId) : History α :=
  if was ≠ now then { h with revivedElements := h.revivedElements.insert was now } else h

def push (h : History α) (step : α) : History α := { h with opened := h.opened ++ [step] }

/-- Drop the substitution maps once no stacked intention can name an id a revival replaced. -/
def prune (h : History α) : History α :=
  if h.undo.isEmpty && h.redo.isEmpty then { h with revived := ∅, revivedElements := ∅ } else h

/-- Drop everything recorded, keeping the recording origin. -/
def forget (h : History α) : History α :=
  { h with opened := [], undo := [], redo := [], revived := ∅, revivedElements := ∅ }

def stack (h : History α) : Landing → List (Intention α)
  | .undo => h.undo
  | .redo => h.redo

def setStack (h : History α) (landing : Landing) (stack : List (Intention α)) : History α :=
  match landing with
  | .undo => { h with undo := stack }
  | .redo => { h with redo := stack }

def canUndo (h : History α) (origin : Bytes) : Bool := h.undo.any fun i => i.origin = origin

def canRedo (h : History α) (origin : Bytes) : Bool := h.redo.any fun i => i.origin = origin

/-- Take `origin`'s most recent intention off the named stack. -/
def take (h : History α) (origin : Bytes) (landing : Landing) : Option (Intention α × History α) :=
  ((h.stack landing).find? fun i => i.origin = origin).map fun intention =>
    (intention, h.setStack landing ((h.stack landing).eraseP fun i => i.origin = origin))

/-- Enter a replay recording the mirror onto `landing`. -/
def beginReplay (h : History α) (origin : Bytes) (landing : Landing) : History α :=
  { h with origin := some origin, landing, replaying := true }

/-- Leave a replay, restoring the recording context it interrupted. -/
def endReplay (h : History α) (saved : Option Bytes × Landing) : History α :=
  { h with origin := saved.1, landing := saved.2, replaying := false }

end History

end CrdtSync
