import CrdtSync.Core.Repair
import CrdtSync.Lib.Differences

/-!
# Structural diff between two snapshots

The two trees are walked in lockstep, and each slot that was added, removed or changed is reported
at its path, in the order of paths. Sequences are compared by their stable ids, so a run of items is
an exact insert or delete. Annotations are outside the tree and compared as a set.
-/

namespace CrdtSync

open Lib

namespace Diff

/-- A list item in a diff: a scalar, or the kind of a composite. -/
inductive SeqItem
  | scalar (value : Scalar)
  | composite (kind : ElementKind)
deriving DecidableEq

/-- One change between two snapshots. A path is given by its keys. -/
inductive Change
  | added (path : List Bytes) (kind : ElementKind)
  | removed (path : List Bytes) (kind : ElementKind)
  | value (path : List Bytes) (old new : Scalar)
  | counter (path : List Bytes) (old new : Int)
  | listInsert (path : List Bytes) (index : Nat) (items : List SeqItem)
  | listDelete (path : List Bytes) (index : Nat) (items : List SeqItem)
  | textInsert (path : List Bytes) (index : Nat) (text : List Char)
  | textDelete (path : List Bytes) (index : Nat) (text : List Char)
  | markAdded (id seq : ElementId) (name : Bytes) (value : Scalar)
  | markRemoved (id seq : ElementId) (name : Bytes) (value : Scalar)
  | markChanged (id seq : ElementId) (name : Bytes) (old new : Scalar)
deriving DecidableEq

section Sequences

/-- The scalar a leaf slot reads, inline or through a register. -/
def scalarOf : Element → Option Scalar
  | .scalar value => some value
  | .register r => some r.value
  | .handle _ _ => none

/-- A list item as it appears in a diff. -/
def seqItem (e : Element) : SeqItem :=
  match scalarOf e with
  | some value => .scalar value
  | none => .composite e.kind

/-- A list's live items in order, each with its stable node id. -/
def listSeq (l : FugueList Element) : List (Stamp × SeqItem) :=
  (List.range l.len).filterMap fun i => do
    let id ← l.nodeAt i
    let item ← l.get i
    some (id, seqItem item)

/-- A text's live codepoints in order, each with its stable id. -/
def charSeq (t : FugueList Element) : List (Stamp × Char) := (t.nodeIds 0 t.len).zip t.asString

/-- The runs of a sequence whose ids another has not, each with its start index. -/
def absentRuns {α : Type} (seq other : List (Stamp × α)) : List (Nat × List α) :=
  runs (fun entry => entry.1 ∈ other.map Prod.fst) Prod.snd seq 0 none

/-- Deletes at their index in the old list, then inserts at theirs in the new one. A node live in
both keeps its place and is not descended into. -/
def diffList (old new : FugueList Element) (path : List Bytes) : List Change :=
  (absentRuns (listSeq old) (listSeq new)).map (fun run => .listDelete path run.1 run.2) ++
    (absentRuns (listSeq new) (listSeq old)).map fun run => .listInsert path run.1 run.2

def diffText (old new : FugueList Element) (path : List Bytes) : List Change :=
  (absentRuns (charSeq old) (charSeq new)).map (fun run => .textDelete path run.1 run.2) ++
    (absentRuns (charSeq new) (charSeq old)).map fun run => .textInsert path run.1 run.2

end Sequences

section Tree

variable (old new : Content)

def unionKeys (m n : LwwMap) : List Bytes :=
  ((m.entries ++ n.entries).map Prod.fst).dedup.insertionSort (· ≤ ·)

def diffSlot (elem : Element → Element → List Bytes → Option (List Change))
    (a b : Option Element) (path : List Bytes) : Option (List Change) :=
  match a, b with
  | none, some e => some [.added path e.kind]
  | some e, none => some [.removed path e.kind]
  | some a, some b => elem a b path
  | none, none => some []

/-- Two maps in lockstep over the union of their live keys. -/
def diffMap (elem : Element → Element → List Bytes → Option (List Change)) (m n : LwwMap)
    (path : List Bytes) : Option (List Change) :=
  ((unionKeys m n).mapM fun key => diffSlot elem (m.get key) (n.get key) (path ++ [key])).map
    List.flatten

def replaced (a b : Element) (path : List Bytes) : List Change :=
  [.removed path a.kind, .added path b.kind]

/-- Two elements at one live slot. The source's recursion has no bound: a document nested in itself
overflows its stack, where this runs out of fuel. -/
def diffElem : Nat → Element → Element → List Bytes → Option (List Change)
  | 0, _, _, _ => none
  | fuel + 1, a, b, path =>
    if a.kind ≠ b.kind then some (replaced a b path)
    else
      match a, b with
      | .handle .map i, .handle .map j =>
        diffMap (diffElem fuel) (old.mapOf i) (new.mapOf j) path
      | .handle .counter i, .handle .counter j =>
        if old.counterValue i ≠ new.counterValue j then
          some [.counter path (old.counterValue i) (new.counterValue j)]
        else some []
      | .handle .list i, .handle .list j => some (diffList (old.listOf i) (new.listOf j) path)
      | .handle .text i, .handle .text j => some (diffText (old.textOf i) (new.textOf j) path)
      | .handle .xmlElement i, .handle .xmlElement j =>
        -- The tag is part of an element's identity.
        if old.tagOf i ≠ new.tagOf j then some (replaced a b path)
        else do
          let attrs ← diffMap (diffElem fuel) (old.attrsOf i) (new.attrsOf j) path
          some (diffList (old.childrenOf .xmlElement i) (new.childrenOf .xmlElement j) path ++ attrs)
      | .handle .xmlFragment i, .handle .xmlFragment j =>
        some (diffList (old.childrenOf .xmlFragment i) (new.childrenOf .xmlFragment j) path)
      | a, b =>
        match scalarOf a, scalarOf b with
        | some x, some y => if x ≠ y then some [.value path x y] else some []
        | _, _ => some []

def diffTree (fuel : Nat) : Option (List Change) :=
  diffMap (diffElem old new fuel) (old.mapOf ROOT_ID) (new.mapOf ROOT_ID) []

end Tree

section Marks

/-- What a diff sees of an annotation: the sequence it is on, its name and its scalar value. -/
structure MarkView where
  seq : ElementId
  name : Bytes
  value : Scalar
deriving DecidableEq

variable [IdBytes]

/-- Only a named scalar takes part. -/
def markView (entry : ElementId × RangedEntry) : Option (Bytes × ElementId × MarkView) :=
  match entry.2.payload, entry.2.name with
  | .scalar value _, some name =>
    some (IdBytes.asBytes entry.1, entry.1, ⟨entry.2.start.seq, name, value⟩)
  | _, _ => none

/-- The named scalar annotations, by the bytes of their ids. -/
def markViews (c : Content) : List (Bytes × ElementId × MarkView) :=
  (Validate.rangedElements c).filterMap markView

def markRemoved (entry : Bytes × ElementId × MarkView) : Change :=
  .markRemoved entry.2.1 entry.2.2.seq entry.2.2.name entry.2.2.value

def markAdded (entry : Bytes × ElementId × MarkView) : Change :=
  .markAdded entry.2.1 entry.2.2.seq entry.2.2.name entry.2.2.value

def markChanged (old new : Bytes × ElementId × MarkView) : Option Change :=
  if old.2.2.value ≠ new.2.2.value then
    some (.markChanged new.2.1 new.2.2.seq new.2.2.name old.2.2.value new.2.2.value)
  else none

def diffMarks (old new : Content) : List Change :=
  mergeJoin markRemoved markAdded markChanged (markViews old) (markViews new)

/-- The changes that turn one snapshot into another, those of the tree in the order of paths. -/
def diff (fuel : Nat) (old new : Content) : Option (List Change) :=
  (diffTree old new fuel).map (· ++ diffMarks old new)

end Marks

end Diff

end CrdtSync
