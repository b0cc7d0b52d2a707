import CrdtSync.Core.Inverse
import CrdtSync.Core.MintFreshness
import CrdtSync.Core.Tallies

/-!
# A replica that records its edits

Every edit is minted and applied by the document and, while an origin is set, leaves its inverse in
the history first. Undo takes an intention off a stack and emits its inverses as a fresh intention,
whose own inverses close as the mirror on the other stack.
-/

namespace CrdtSync

open Lib
open Std (ExtTreeMap)

/-- The partition an op falls in, resolved against live state. -/
class Zones where
  zoneOfOp : Content → ElementId → OpKind → Option Nat

structure Tracked where
  doc : Document Content
  history : History Inverse

namespace Tracked

section Emission

variable [IdBytes] [Zones]

def new (client : ClientId) : Tracked := ⟨Document.new client Content.new, History.empty⟩

def edit (r : Tracked) (target : ElementId) (kind : OpKind) : Edit :=
  ⟨target, kind, Zones.zoneOfOp r.doc.content target kind⟩

/-- Emit an op and hand back the stamp minted for it. The inverse is read off the state the op is
about to overwrite. -/
def emitStamped (r : Tracked) (target : ElementId) (kind : OpKind) : Option Stamp × Tracked :=
  let e := r.edit target kind
  match r.doc.emitted e with
  | none => (none, { r with doc := r.doc.emit e })
  | some op =>
    let history :=
      if r.history.recording then
        (r.doc.content.inverse target kind op.stamp).foldl History.push r.history
      else r.history
    (some op.stamp, ⟨r.doc.emit e, history⟩)

def emit (r : Tracked) (target : ElementId) (kind : OpKind) : Tracked := (r.emitStamped target kind).2

def emitAll (r : Tracked) (edits : List (ElementId × OpKind)) : Tracked :=
  edits.foldl (fun r e => r.emit e.1 e.2) r

/-- What a transact hands back once its edits are made. It is one intention unless it is part of a
larger group, whose ops ship on `commitAtomic`. -/
def closeTransact (r : Tracked) : List Op × Tracked :=
  let doc := r.doc.drainBuffer
  let ops := doc.pending
  let doc := { doc with pending := [] }
  let history := if doc.recordingIntention then r.history else r.history.close false
  match doc.atomic with
  | some acc => ([], ⟨{ doc with atomic := some (acc ++ ops) }, history⟩)
  | none => (ops, ⟨doc, history⟩)

def openTransact (r : Tracked) : Tracked := { r with doc := r.doc.openTransact }

/-- Gather local edits into ops, applying each as it is emitted. -/
def transact (r : Tracked) (edits : List (ElementId × OpKind)) : List Op × Tracked :=
  (r.openTransact.emitAll edits).closeTransact

end Emission

section Revival

variable [IdBytes] [Zones]

def substitute (r : Tracked) (seq : ElementId) (was now : Stamp) : Tracked :=
  { r with history := r.history.substitute seq was now }

def substituteElement (r : Tracked) (was now : ElementId) : Tracked :=
  { r with history := r.history.substituteElement was now }

/-- Drive a counter to a total from zero. The op carries a 32-bit delta, so a total beyond that
range takes several; a zero total still re-installs the counter. -/
def fillCounter (r : Tracked) (map : ElementId) (key : Bytes) (negative : Bool) (left : Nat) : Tracked :=
  let amount := min left u32Max
  let r := r.emit map (if negative then .counterDec key amount else .counterInc key amount)
  if left - amount = 0 then r else r.fillCounter map key negative (left - amount)
termination_by left
decreasing_by
  have : 0 < u32Max := by decide
  omega

/-- The loop emits the ops that drive the counter there. -/
theorem fillCounter_eq_emitAll (r : Tracked) (map : ElementId) (key : Bytes) (negative : Bool)
    (left : Nat) : r.fillCounter map key negative left =
      r.emitAll ((fillFrom key negative left).map fun kind => (map, kind)) := by
  have hMax : 0 < u32Max := by decide
  induction left using Nat.strong_induction_on generalizing r with
  | _ left ih =>
    rw [fillCounter, fillFrom]
    split
    · rfl
    next hMore => exact ih _ (by omega) _

def fillList (r : Tracked) (list : ElementId) (index : Nat) : List Scalar → Tracked
  | [] => r
  | value :: values =>
    match r.doc.content.lists[list]? with
    | none => r
    | some l => (r.emit list (.listInsert value (l.place index))).fillList list (index + 1) values

def fillText (r : Tracked) (text : ElementId) (s : List Char) : Tracked :=
  if s.isEmpty then r
  else
    match r.doc.content.texts[text]? with
    | none => r
    | some t => r.emit text (.textInsert s (t.place 0))

mutual

/-- Rebuild a captured sequence node, handing back the sequence id it came back under. -/
def reviveNode (r : Tracked) (list : ElementId) (anchor : Anchor) : Snap → Option Stamp × Tracked
  | .text s =>
    match r.emitStamped list (.xmlInsertChild none anchor) with
    | (none, r) => (none, r)
    | (some stamp, r) => (some stamp, r.fillText (xmlChildId list stamp .text) s)
  | .xmlElement tag attrs children =>
    match r.emitStamped list (.xmlInsertChild (some tag) anchor) with
    | (none, r) => (none, r)
    | (some stamp, r) =>
      let child := xmlChildId list stamp .xmlElement
      let r := r.fillSlots (XmlElement.attrsId child) attrs
      (some stamp, r.fillChildren (XmlElement.childrenId child) 0 children)
  | _ => (none, r)

/-- Re-create captured slots, descending into each container as it is installed. -/
def fillSlots (r : Tracked) (map : ElementId) : List (Bytes × Snap) → Tracked
  | [] => r
  | (key, snap) :: slots => (r.fillSlot map key snap).fillSlots map slots

def fillSlot (r : Tracked) (map : ElementId) (key : Bytes) : Snap → Tracked
  | .scalar value => r.emit map (.mapSet key value)
  | .register value => r.emit map (.registerSet key value)
  | .counter total => r.fillCounter map key (total < 0) total.natAbs
  | .map slots => (r.emit map (.mapCreate key)).fillSlots (.derive map key .map) slots
  | .list values => (r.emit map (.listCreate key)).fillList (.derive map key .list) 0 values
  | .text s => (r.emit map (.textCreate key)).fillText (.derive map key .text) s
  | .xmlElement tag attrs children =>
    let child := XmlElement.nodeId map key tag
    let r := (r.emit map (.xmlElementCreate key tag)).fillSlots (XmlElement.attrsId child) attrs
    r.fillChildren (XmlElement.childrenId child) 0 children
  | .xmlFragment children =>
    let child := XmlFragment.nodeId map key
    (r.emit map (.xmlFragmentCreate key)).fillChildren (XmlElement.childrenId child) 0 children

def fillChildren (r : Tracked) (list : ElementId) (index : Nat) : List Snap → Tracked
  | [] => r
  | child :: children =>
    match r.doc.content.lists[list]? with
    | none => r
    | some l =>
      (r.reviveNode list (l.place index) child).2.fillChildren list (index + 1) children

end

/-- Re-create a captured annotation and rebuild its payload. -/
def reviveRanged (r : Tracked) (start stop : RangeAnchor) (name : Option Bytes) (payload : Snap) :
    Option ElementId × Tracked :=
  let init : Option RangedInit := match payload with
    | .scalar value => some (.scalar value)
    | .map _ => some (.composite .map)
    | .list _ => some (.composite .list)
    | .text _ => some (.composite .text)
    | _ => none
  match init with
  | none => (none, r)
  | some init =>
    match r.emitStamped ROOT_ID (.rangedCreate start stop init name) with
    | (none, r) => (none, r)
    | (some stamp, r) =>
      let ranged := rangedId stamp
      let r := match payload with
        | .map slots => r.fillSlots (payloadId ranged .map) slots
        | .list values => r.fillList (payloadId ranged .list) 0 values
        | .text s => r.fillText (payloadId ranged .text) s
        | _ => r
      (some ranged, r)

def nodeAt (c : Content) (list : ElementId) (stamp : Stamp) : Option ElementId :=
  [xmlChildId list stamp .xmlElement, xmlChildId list stamp .text].find? fun id =>
    (c.nodeElement id).isSome

/-- Re-point a step at the ids its items, nodes, annotations and tuples came back as. -/
def followRevivals (h : History Inverse) (seq : ElementId) (kind : OpKind) : OpKind :=
  let anchored (a : Anchor) : Anchor := ⟨a.parent.map (h.current seq), a.side⟩
  match kind with
  | .listDelete id => .listDelete (h.current seq id)
  | .listInsert value anchor => .listInsert value (anchored anchor)
  | .textInsert s anchor => .textInsert s (anchored anchor)
  | .xmlInsertChild tag anchor => .xmlInsertChild tag (anchored anchor)
  | .textDelete ids => .textDelete (ids.map (h.current seq))
  | .xmlMove node anchor => .xmlMove (h.currentElement node) (anchored anchor)
  | .rangedSetPayload id payload => .rangedSetPayload (h.currentElement id) payload
  | .rangedDelete id => .rangedDelete (h.currentElement id)
  | .aclRevoke id => .aclRevoke (h.currentElement id)
  | other => other

/-- Emit one inverse, following any revival that has since replaced the ids it names, and recording
what its own revival replaces. -/
def emitInverse (r : Tracked) : Inverse → Tracked
  | .op target kind =>
    let target := r.history.currentElement target
    r.emit target (followRevivals r.history target kind)
  | .regrant target subject grant effect scope grantor was =>
    match r.emitStamped target (.aclGrant subject grant effect scope grantor) with
    | (none, r) => r
    | (some stamp, r) => r.substituteElement was (aclId stamp)
  | .reviveItem list anchor value was =>
    match r.emitStamped list (.listInsert value anchor) with
    | (none, r) => r
    | (some now, r) => r.substitute list was now
  | .reviveRun text anchor s was =>
    match r.emitStamped text (.textInsert s anchor) with
    | (none, r) => r
    | (some now, r) =>
      was.zipIdx.foldl (fun r (old, i) => r.substitute text old (now.runMember i)) r
  | .reviveNode list anchor node was wasNode =>
    match r.reviveNode list anchor node with
    | (none, r) => r
    | (some now, r) =>
      let r := r.substitute list was now
      match nodeAt r.doc.content list now with
      | none => r
      | some element =>
        ((r.substituteElement wasNode element).substituteElement (XmlElement.attrsId wasNode)
          (XmlElement.attrsId element)).substituteElement (XmlElement.childrenId wasNode)
            (XmlElement.childrenId element)
  | .ranged start stop name payload was =>
    match r.reviveRanged start stop name payload with
    | (none, r) => r
    | (some now, r) =>
      [ElementKind.map, .list, .text].foldl
        (fun r kind => r.substituteElement (payloadId was kind) (payloadId now kind))
        (r.substituteElement was now)

end Revival

section Replay

variable [IdBytes] [Zones]

/-- Re-create the containers `target` sits under, as far as each can land. -/
def reinstate (r : Tracked) : List (ElementId × OpKind) → Tracked
  | [] => r
  | (target, kind) :: chain =>
    if r.doc.content.materialised target then (r.emit target kind).reinstate chain else r

/-- One step of a plan. A step whose container is displaced is preceded by a copy of the ops that put
it back, and emitted whether or not that took, unless no replica has the container. -/
def replayStep (installers : Registry (ElementId × OpKind)) (r : Tracked) (step : Inverse) : Tracked :=
  let target := r.history.currentElement (Content.stepTarget step)
  let r := if r.doc.content.resolvable target then r
    else r.reinstate (r.doc.content.reinstatements target installers)
  if r.doc.content.materialised target then r.emitInverse step else r

def installersOf (plan : List Inverse) : Registry (ElementId × OpKind) :=
  (plan.filterMap Content.installs).foldl (fun installers (id, install) => installers.insert id install) ∅

/-- The document and history a replay starts from. -/
def openReplay (r : Tracked) (intention : Intention Inverse) (landing : Landing) : Tracked :=
  ⟨r.doc.openReplay intention.atomic, r.history.beginReplay intention.origin landing⟩

/-- Emit an intention's inverses, last edit undone first. -/
def emitPlan (r : Tracked) (steps : List Inverse) : Tracked :=
  let plan := r.doc.content.plan steps
  plan.foldl (replayStep (installersOf plan)) r

variable [TxDigest]

/-- Close the atomic transaction and hand back its ops. The group is one intention. -/
def commitAtomic (r : Tracked) : List Op × Tracked :=
  if r.doc.atomic.isNone then ([], r)
  else
    let committed := r.doc.commitAtomic
    (committed.1, ⟨committed.2, r.history.close true⟩)

def replay (r : Tracked) (intention : Intention Inverse) (landing : Landing) : List Op × Tracked :=
  let saved := (r.history.origin, r.history.landing)
  let r := (r.openReplay intention landing).emitPlan intention.steps
  let doc := r.doc.drainBuffer
  let ops := doc.pending
  let doc := { doc with pending := [] }
  let (ops, r) :=
    if intention.atomic then
      commitAtomic ⟨{ doc with atomic := some (doc.atomic.getD [] ++ ops) }, r.history⟩
    else (ops, ⟨doc, r.history.close false⟩)
  (ops, { r with history := (r.history.endReplay saved).prune })

/-- Revert `origin`'s most recent intention, unless one is open. -/
def undo (r : Tracked) (origin : Bytes) : Option (List Op × Tracked) :=
  if r.doc.recordingIntention then none
  else (r.history.take origin .undo).map fun (intention, history) =>
    { r with history }.replay intention .redo

/-- Replay `origin`'s most recently undone intention. -/
def redo (r : Tracked) (origin : Bytes) : Option (List Op × Tracked) :=
  if r.doc.recordingIntention then none
  else (r.history.take origin .redo).map fun (intention, history) =>
    { r with history }.replay intention .undo

def beginIntention (r : Tracked) : Tracked := { r with doc := r.doc.beginIntention }

/-- Close one level of grouping; the outermost close records the step. -/
def endIntention (r : Tracked) : Tracked :=
  let doc := r.doc.endIntention
  ⟨doc, if doc.recordingIntention then r.history else r.history.close false⟩

def beginAtomic (r : Tracked) : Tracked := { r with doc := r.doc.beginAtomic }

def atomicTransact (r : Tracked) (edits : List (ElementId × OpKind)) : List Op × Tracked :=
  (r.beginAtomic.transact edits).2.commitAtomic

def setUndoOrigin (r : Tracked) (origin : Bytes) : Tracked :=
  { r with history := r.history.track origin }

def clearUndoOrigin (r : Tracked) : Tracked := { r with history := r.history.untrack }

/-- What happens to a replica that records: what its owner does, and what the network brings. -/
inductive Gesture
  | setUndoOrigin (origin : Bytes)
  | clearUndoOrigin
  | transact (edits : List (ElementId × OpKind))
  | beginIntention
  | endIntention
  | beginAtomic
  | commitAtomic
  | undo (origin : Bytes)
  | redo (origin : Bytes)
  | apply (op : Op)
  | evictPartialTransactions

/-- The ops a gesture hands out, and the replica after it. -/
def act (r : Tracked) : Gesture → List Op × Tracked
  | .setUndoOrigin origin => ([], r.setUndoOrigin origin)
  | .clearUndoOrigin => ([], r.clearUndoOrigin)
  | .transact edits => r.transact edits
  | .beginIntention => ([], r.beginIntention)
  | .endIntention => ([], r.endIntention)
  | .beginAtomic => ([], r.beginAtomic)
  | .commitAtomic => r.commitAtomic
  | .undo origin => (r.undo origin).getD ([], r)
  | .redo origin => (r.redo origin).getD ([], r)
  | .apply op => ([], { r with doc := r.doc.apply op })
  | .evictPartialTransactions => ([], { r with doc := r.doc.evictPartialTransactions })

/-- A run of gestures: every op handed out, and the replica after the last. -/
def run (r : Tracked) : List Gesture → List Op × Tracked
  | [] => ([], r)
  | g :: gs =>
    let (ops, r) := r.act g
    let (more, r) := r.run gs
    (ops ++ more, r)

end Replay

end Tracked

end CrdtSync
