import Mathlib.Data.List.Dedup
import CrdtSync.Core.Stamp
import CrdtSync.Lib.ForestWalk
import CrdtSync.Lib.OrderedMap

/-!
# The sequence

An ordered sequence as the code stores it: live nodes by id, deleted ids as runs.
A run is one record for ids that count up in lamport, the head placed at its
anchor and every later id the right child of the one before. Seating an id in a
run splits it and deleting an id welds the runs it continues.
-/

namespace CrdtSync

open Lib
open Std (ExtTreeMap)

/-- What a sequence reads of the values it holds. -/
class SeqValue (V : Type) where
  kind : V → ElementKind
  /-- The bytes `put_node_value` writes, the kind tag first. -/
  encoded : V → Bytes
  /-- `Element::merge` of two values that encode alike. -/
  merge : V → V → V

def runId (head : Stamp) (i : Nat) : Stamp := { head with lamport := head.lamport + i }

/-- Whether a run of `len` ids from `head` contains `id`. -/
def covers (head : Stamp) (len : Nat) (id : Stamp) : Bool :=
  head.client == id.client && head.offset == id.offset && decide (head.lamport ≤ id.lamport) &&
    decide (id.lamport - head.lamport < len)

/-- A claim on an id: the kind tag, then the position, then the encoded value. -/
abbrev Rank := Nat ×ₗ Anchor ×ₗ Bytes

/-- What holds a sequence id, as far as a claim can rank it. -/
inductive Seated
  | vacant
  | live (rank : Rank)
  | dead (anchor : Anchor)

structure Node (V : Type) where
  value : V
  anchor : Anchor
  movedAway : Bool
deriving DecidableEq

structure DeadRun where
  len : Nat
  anchor : Anchor
deriving DecidableEq

/-- One record in sequence order: a node, or a stretch of deleted ids. -/
inductive Span
  | node (id : Stamp)
  | dead (head : Stamp) (len : Nat)
deriving DecidableEq

namespace Span

def head : Span → Stamp
  | node id => id
  | dead head _ => head

def last : Span → Stamp
  | node id => id
  | dead head len => runId head (len - 1)

end Span

/-- The deleted ids, keyed by run head. -/
abbrev Runs := ExtTreeMap SeqKey DeadRun compare

namespace Runs

/-- The run covering `id`, as its head and record. -/
def deadRun (dead : Runs) (id : Stamp) : Option (Stamp × DeadRun) :=
  match lastAtMost dead (seqKey id) with
  | some (key, run) => if covers (seqStamp key) run.len id then some (seqStamp key, run) else none
  | none => none

def deadAnchorOf (dead : Runs) (id : Stamp) : Option Anchor :=
  match deadRun dead id with
  | none => none
  | some (head, run) =>
    if head = id then some run.anchor
    else some ⟨some (runId head (id.lamport - head.lamport - 1)), .right⟩

/-- Store one piece of a split run; an empty piece is no record. -/
def putDead (dead : Runs) (head : Stamp) (len : Nat) (anchor : Anchor) : Runs :=
  if len = 0 then dead else dead.insert (seqKey head) ⟨len, anchor⟩

/-- Lift `id` out of the runs, splitting the one that covers it. -/
def takeDead (dead : Runs) (id : Stamp) : Option Runs :=
  match deadRun dead id with
  | none => none
  | some (head, run) =>
    let before := id.lamport - head.lamport
    let after := run.len - before - 1
    let dead := putDead (dead.erase (seqKey head)) head before run.anchor
    some (if 0 < after then putDead dead (runId head (before + 1)) after ⟨some id, .right⟩ else dead)

/-- Weld a stretch onto the run that ends just before it, when it chains there. -/
def weldBefore (dead : Runs) (head : Stamp) (len : Nat) (anchor : Anchor) :
    Runs × Stamp × Nat × Anchor :=
  match checkedSub head.lamport 1 with
  | none => (dead, head, len, anchor)
  | some lamport =>
    let prev : Stamp := { head with lamport }
    if anchor = ⟨some prev, .right⟩ then
      match deadRun dead prev with
      | some (phead, prun) =>
        if runId phead (prun.len - 1) = prev then
          (dead.erase (seqKey phead), phead, len + prun.len, prun.anchor)
        else (dead, head, len, anchor)
      | none => (dead, head, len, anchor)
    else (dead, head, len, anchor)

/-- Take over the run that starts just after a stretch, when it chains onto it. -/
def weldAfter (dead : Runs) (head : Stamp) (len : Nat) : Runs × Nat :=
  let last := runId head (len - 1)
  match checkedAdd last.lamport 1 with
  | none => (dead, len)
  | some lamport =>
    let next : Stamp := { last with lamport }
    match dead[seqKey next]? with
    | some nrun =>
      if nrun.anchor = ⟨some last, .right⟩ then (dead.erase (seqKey next), len + nrun.len)
      else (dead, len)
    | none => (dead, len)

def addDead (dead : Runs) (head : Stamp) (len : Nat) (anchor : Anchor) : Runs :=
  match weldBefore dead head len anchor with
  | (dead, head, len, anchor) =>
    match weldAfter dead head len with
    | (dead, len) => dead.insert (seqKey head) ⟨len, anchor⟩

end Runs

structure FugueList (V : Type) where
  id : ElementId
  nodes : ExtTreeMap SeqKey (Node V) compare
  dead : Runs
  displaced : Bool
deriving DecidableEq

namespace FugueList

open Runs SeqValue

variable {V : Type}

def new (id : ElementId) : FugueList V := ⟨id, ∅, ∅, false⟩

section Order

def anchors (l : FugueList V) : List Anchor :=
  l.nodes.toList.map (·.2.anchor) ++ l.dead.toList.map (·.2.anchor)

/-- A left attachment cuts before the id it hangs on, a right one after it. -/
def cutPlace : Side → Nat → Nat
  | .left, place => place
  | .right, place => place + 1

/-- Where an attachment cuts the run its parent is in. -/
def cutBy (l : FugueList V) (anchor : Anchor) : Option (SeqKey × Nat) := do
  let parent ← anchor.parent
  let (head, run) ← deadRun l.dead parent
  let cut := cutPlace anchor.side (parent.lamport - head.lamport)
  if 0 < cut ∧ cut < run.len then some (seqKey head, cut) else none

/-- The places the run at `key` is cut, in order. -/
def cuts (l : FugueList V) (key : SeqKey) : List Nat :=
  ((l.anchors.filterMap l.cutBy).filterMap fun (k, cut) =>
    if k = key then some cut else none).dedup.insertionSort (· ≤ ·)

/-- The pieces of a run that ends at each of `ends`, chained one to the next. -/
def pieces (head : Stamp) (anchor : Anchor) (start : Nat) : List Nat → List (Anchor × Span)
  | [] => []
  | stop :: ends =>
    (anchor, .dead (runId head start) (stop - start)) ::
      pieces head ⟨some (runId head (stop - 1)), .right⟩ stop ends

/-- Every node and every piece of a run, with the anchor it hangs on. -/
def records (l : FugueList V) : List (Anchor × Span) :=
  l.nodes.toList.map (fun (key, n) => (n.anchor, .node (seqStamp key))) ++
    l.dead.toList.flatMap fun (key, run) =>
      pieces (seqStamp key) run.anchor 0 (l.cuts key ++ [run.len])

def bucket (l : FugueList V) (parent : Option Stamp) (side : Side) : List Span :=
  ((l.records.filter fun r => r.1 = ⟨parent, side⟩).map (·.2)).insertionSort
    fun a b => a.head ≤ b.head

/-- A record's left children hang off its head and its right ones off its last id. -/
def children (l : FugueList V) : Forest Span where
  left p := l.bucket (p.map Span.head) .left
  right p := l.bucket (p.map Span.last) .right

def treeOrder (l : FugueList V) : List Span :=
  (l.children.loop (2 * l.records.length + 1) [.expand none] []).getD []

def hidden (l : FugueList V) (id : Stamp) : Bool :=
  match l.nodes[seqKey id]? with
  | some n => n.movedAway
  | none => true

def liveOrder (l : FugueList V) : List Stamp :=
  l.treeOrder.filterMap fun
    | .node id => if l.hidden id then none else some id
    | .dead _ _ => none

def nodeAt (l : FugueList V) (index : Nat) : Option Stamp := l.liveOrder[index]?

/-- The records around the gap before live `index`, `exclude` counted as not live. -/
def gapExcluding (l : FugueList V) (exclude : Option Stamp) :
    List Span → Nat → Option Stamp → Option Stamp × Option Stamp
  | [], _, left => (left, none)
  | span :: _, 0, left => (left, some span.head)
  | span :: order, index + 1, _ =>
    let counted := match span with
      | .node id => !l.hidden id && some id != exclude
      | .dead _ _ => false
    l.gapExcluding exclude order (if counted then index else index + 1) (some span.last)

def hasRightChild (l : FugueList V) (parent : Stamp) : Bool :=
  (match deadRun l.dead parent with
    | some (head, run) => parent != runId head (run.len - 1)
    | none => false) ||
  l.anchors.any (· == ⟨some parent, .right⟩)

def placement (l : FugueList V) : Option Stamp → Option Stamp → Anchor
  | some left, right =>
    if !l.hasRightChild left then ⟨some left, .right⟩
    else match right with
      | some right => ⟨some right, .left⟩
      | none => ⟨some left, .right⟩
  | none, some right => ⟨some right, .left⟩
  | none, none => ⟨none, .right⟩

def placeExcluding (l : FugueList V) (index : Nat) (exclude : Option Stamp) : Anchor :=
  match l.gapExcluding exclude l.treeOrder index none with
  | (left, right) => l.placement left right

def place (l : FugueList V) (index : Nat) : Anchor := l.placeExcluding index none

end Order

def anchorOf (l : FugueList V) (id : Stamp) : Option Anchor :=
  match l.nodes[seqKey id]? with
  | some node => some node.anchor
  | none => deadAnchorOf l.dead id

def nodeValue (l : FugueList V) (id : Stamp) : Option V := l.nodes[seqKey id]?.map (·.value)

def isTombstoned (l : FugueList V) (id : Stamp) : Bool := (deadRun l.dead id).isSome

def contains (l : FugueList V) (id : Stamp) : Bool :=
  l.nodes.contains (seqKey id) || (deadRun l.dead id).isSome

/-- Delete the node with `id`, folding it into the run it continues. -/
def deleteId (l : FugueList V) (id : Stamp) : FugueList V :=
  match l.nodes[seqKey id]? with
  | none => l
  | some node =>
    { l with nodes := l.nodes.erase (seqKey id), dead := addDead l.dead id 1 node.anchor }

def delete (l : FugueList V) (index : Nat) : FugueList V :=
  match l.nodeAt index with
  | some id => l.deleteId id
  | none => l

/-- Suppress or re-instate a node's placement under a tree move. -/
def setMovedAway (l : FugueList V) (id : Stamp) (away : Bool) : FugueList V :=
  match l.nodes[seqKey id]? with
  | some node => { l with nodes := l.nodes.insert (seqKey id) { node with movedAway := away } }
  | none => l

/-- Install a claim that has been ranked. A delete is terminal, so a deleted id
takes only the new position. -/
def seat (l : FugueList V) (id : Stamp) (value : V) (anchor : Anchor) : FugueList V :=
  let node : Node V := ⟨value, anchor, false⟩
  match takeDead l.dead id with
  | some dead =>
    deleteId { l with nodes := l.nodes.insert (seqKey id) node, dead } id
  | none => { l with nodes := l.nodes.insert (seqKey id) node }

variable [SeqValue V]

def claimRank (value : V) (anchor : Anchor) : Rank :=
  toLex ((kind value).tag, toLex (anchor, encoded value))

def seated (l : FugueList V) (id : Stamp) : Seated :=
  match l.nodes[seqKey id]? with
  | some node => .live (claimRank node.value node.anchor)
  | none =>
    match deadAnchorOf l.dead id with
    | some anchor => .dead anchor
    | none => .vacant

/-- Claim `id` for `value` at `anchor`, ranked against whatever holds it. -/
def insertAt (l : FugueList V) (id : Stamp) (value : V) (anchor : Anchor) : FugueList V :=
  let takes := match l.seated id with
    | .vacant => true
    | .live seated => decide (claimRank value anchor < seated)
    | .dead seated => decide (anchor < seated)
  if takes then l.seat id value anchor else l

def insert (l : FugueList V) (index : Nat) (value : V) (stamp : Stamp) : FugueList V :=
  if l.contains stamp then l else l.insertAt stamp value (l.place index)

/-- Whether a claim the document has already ranked yields to what holds `id`. -/
def yieldsToSeated (l : FugueList V) (id : Stamp) : Bool :=
  (l.nodes[seqKey id]?.map fun n => kind n.value) == some .scalar

/-- Hand `id` to a claim on the document's ranking. -/
def reseat (l : FugueList V) (id : Stamp) (value : V) (anchor : Anchor) : FugueList V :=
  if l.yieldsToSeated id then l else l.seat id value anchor

/-- Re-seat `id` at the lesser of where it sits and `anchor`. -/
def rejoin (l : FugueList V) (id : Stamp) (value : V) (anchor : Anchor) : FugueList V :=
  if l.yieldsToSeated id then l
  else
    let anchor := match l.anchorOf id with
      | some held => min anchor held
      | none => anchor
    l.seat id value anchor

section Merge

/-- How many ids from `id` onward, at most `most`, the list has never seen. -/
def unseenFrom (l : FugueList V) (id : Stamp) (most : Nat) : Nat :=
  let distance (key : SeqKey) : Option Nat :=
    if key.client = id.client ∧ key.offset = id.offset then some (key.lamport - id.lamport)
    else none
  let nextNode := (firstAtLeast l.nodes (seqKey id)).bind fun e => distance e.1
  let nextDead := (firstAtLeast l.dead (seqKey id)).bind fun e => distance e.1
  (nextNode.getD most ⊓ nextDead.getD most) ⊓ most

/-- Mark another replica's run deleted here, from its `i`-th id on. -/
def bury (l : FugueList V) (head : Stamp) (len : Nat) (anchor : Anchor) (i : Nat) :
    Nat → FugueList V
  | 0 => l
  | fuel + 1 =>
    if i < len then
      let id := runId head i
      match deadRun l.dead id with
      | some (h, run) => bury l head len anchor (i + (run.len - (id.lamport - h.lamport))) fuel
      | none =>
        match l.nodes[seqKey id]? with
        | some node =>
          let nodes := l.nodes.erase (seqKey id)
          bury { l with nodes, dead := addDead l.dead id 1 node.anchor } head len anchor (i + 1) fuel
        | none =>
          let unseen := l.unseenFrom id (len - i)
          let chain : Anchor := if i = 0 then anchor else ⟨some (runId head (i - 1)), .right⟩
          bury { l with dead := addDead l.dead id unseen chain } head len anchor (i + unseen) fuel
    else l

def mergeNode (l : FugueList V) (key : SeqKey) (on : Node V) : FugueList V :=
  match l.nodes[key]? with
  | some sn =>
    let claim := claimRank on.value on.anchor
    let seated := claimRank sn.value sn.anchor
    if (kind on.value).tag = (kind sn.value).tag ∧ encoded on.value = encoded sn.value then
      let value := if kind sn.value = .scalar then sn.value else merge sn.value on.value
      let anchor := if on.anchor < sn.anchor then on.anchor else sn.anchor
      { l with nodes := l.nodes.insert key { sn with value, anchor } }
    else if claim < seated then l.seat (seqStamp key) on.value on.anchor
    else l
  | none =>
    match deadAnchorOf l.dead (seqStamp key) with
    | some _ => l
    | none => { l with nodes := l.nodes.insert key on }

/-- Fold another replica's sequence in. A delete wins and is terminal. -/
def merge (l other : FugueList V) : FugueList V :=
  let l := other.nodes.toList.foldl (fun l (key, on) => l.mergeNode key on) l
  other.dead.toList.foldl
    (fun l (key, run) => l.bury (seqStamp key) run.len run.anchor 0 run.len) l

end Merge

end FugueList

end CrdtSync
