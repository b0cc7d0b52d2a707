import CrdtSync.Core.History
import CrdtSync.Core.ParentCycles
import CrdtSync.Core.Tallies

/-!
# Inverses

What would put the state back after a mutation lands, read against the state as it stands before.
A deleted item is revived by a fresh insert, a deleted node or annotation out of a snapshot of what
it held.
-/

namespace CrdtSync

open Lib
open Std (ExtTreeMap)

/-- A captured element, deep enough to rebuild it out of ordinary forward ops. -/
inductive Snap
  | scalar (value : Scalar)
  | register (value : Scalar)
  | counter (total : Int)
  | map (slots : List (Bytes × Snap))
  | list (values : List Scalar)
  | text (s : List Char)
  | xmlElement (tag : Bytes) (attrs : List (Bytes × Snap)) (children : List Snap)
  | xmlFragment (children : List Snap)

/-- What to emit to undo a single recorded op. A revival names the id it replaces. -/
inductive Inverse
  | op (target : ElementId) (kind : OpKind)
  | reviveItem (list : ElementId) (anchor : Anchor) (value : Scalar) (was : Stamp)
  | reviveRun (text : ElementId) (anchor : Anchor) (s : List Char) (was : List Stamp)
  | reviveNode (list : ElementId) (anchor : Anchor) (node : Snap) (was : Stamp) (wasNode : ElementId)
  | ranged (start stop : RangeAnchor) (name : Option Bytes) (payload : Snap) (was : ElementId)
  | regrant (target : ElementId) (subject : AclSubject) (grant : AclGrant) (effect : AclEffect)
      (scope : AclScope) (grantor : ClientId) (was : ElementId)

def MAX_SNAPSHOT_DEPTH : Nat := 64

def Element.id : Element → Option ElementId
  | .scalar _ => none
  | .register r => some r.id
  | .handle _ id => some id

/-- A text holds codepoints only. -/
def Element.codepoint : Element → Option Char
  | .scalar (.int n) => some (Char.ofNat n.toNat)
  | _ => none

def LwwMap.entries (m : LwwMap) : List (Bytes × Element) :=
  m.slots.toList.filterMap fun (key, e) => e.value.map fun value => (key, value)

namespace FugueList

def values (l : FugueList Element) : List Element := l.liveOrder.filterMap l.nodeValue

def liveIndex (l : FugueList Element) (id : Stamp) : Option Nat :=
  l.liveOrder.findIdx? fun other => other = id

def asString (l : FugueList Element) : List Char := l.values.filterMap Element.codepoint

end FugueList

namespace Content

/-- A target is reachable when it and every ancestor up to the root is installed. The links of a
forest end within as many steps as there are links. -/
def resolvable (c : Content) (target : ElementId) : Bool :=
  (c.resolvableLoop (c.parents.size + 2) target).getD false

section Snapshots

/-- Capture an element deeply enough to rebuild it, as deep as `depth` levels. -/
def snapshot (c : Content) : Nat → Element → Option Snap
  | 0, _ => none
  | depth + 1, element =>
    let slots (m : LwwMap) : List (Bytes × Snap) :=
      m.entries.filterMap fun (key, value) => (c.snapshot depth value).map fun snap => (key, snap)
    let children (l : FugueList Element) : List Snap := l.values.filterMap (c.snapshot depth)
    match element with
    | .scalar value => some (.scalar value)
    | .register r => some (.register r.value)
    | .handle .counter id => c.counters[id]?.map fun n => .counter n.read
    | .handle .map id => c.maps[id]?.map fun m => .map (slots m)
    | .handle .list id =>
      c.lists[id]?.map fun l => .list (l.values.filterMap fun
        | .scalar value => some value
        | _ => none)
    | .handle .text id => c.texts[id]?.map fun t => .text t.asString
    | .handle .xmlElement id =>
      c.xmlElements[id]?.map fun x =>
        let attrs := if x.ownsAttrs then c.maps[XmlElement.attrsId id]? else none
        let nodes := if x.ownsChildren then c.lists[XmlElement.childrenId id]? else none
        .xmlElement x.tag ((attrs.map slots).getD []) ((nodes.map children).getD [])
    | .handle .xmlFragment id =>
      c.xmlFragments[id]?.map fun f =>
        let nodes := if f.ownsChildren then c.lists[XmlElement.childrenId id]? else none
        .xmlFragment ((nodes.map children).getD [])
    | .handle _ _ => none

end Snapshots

section Inverses

/-- Re-install whatever `key` holds right now. A container is retained by id, so re-creating it at
the same key brings it back whole; an empty slot inverts to a delete. -/
def slotInverse (c : Content) (map : ElementId) (key : Bytes) : Option Inverse :=
  c.maps[map]?.bind fun m =>
    let kind : Option OpKind := match m.get key with
      | none => some (.mapDelete key)
      | some (.scalar value) => some (.mapSet key value)
      | some (.register r) => some (.registerSet key r.value)
      | some (.handle .counter _) => some (.counterInc key 0)
      | some (.handle .map _) => some (.mapCreate key)
      | some (.handle .list _) => some (.listCreate key)
      | some (.handle .text _) => some (.textCreate key)
      | some (.handle .xmlElement id) => c.xmlElements[id]?.map fun x => .xmlElementCreate key x.tag
      | some (.handle .xmlFragment _) => some (.xmlFragmentCreate key)
      | some (.handle _ _) => none
    kind.map (.op map)

def renders (c : Content) (node : ElementId) : Bool :=
  (c.placements[node]?.getD []).any fun p =>
    c.resolvable p.list && c.lists[p.list]?.any fun l => (l.liveIndex p.stamp).isSome

/-- Revive the node about to be tombstoned as the left child of the one it replaces. A scalar comes
back as a plain insert; a node is rebuilt, and only if the delete takes it out of view. -/
def listDeleteInverse (c : Content) (list : ElementId) (id : Stamp) : Option Inverse :=
  (c.lists[list]?.bind fun l => l.nodeValue id).bind fun value =>
    match value with
    | .scalar value => some (.reviveItem list ⟨some id, .left⟩ value id)
    | other =>
      other.id.bind fun node =>
        if c.renders node then
          (c.snapshot MAX_SNAPSHOT_DEPTH other).map fun snap =>
            .reviveNode list ⟨some id, .left⟩ snap id node
        else none

def textDeleteInverse (c : Content) (text : ElementId) (ids : List Stamp) : Option Inverse :=
  c.texts[text]?.bind fun t =>
    let live := (ids.filterMap fun id => (t.liveIndex id).map fun i => (i, id)).insertionSort
      fun a b => a.1 ≤ b.1
    live.head?.map fun first =>
      .reviveRun text ⟨some first.2, .left⟩ (live.filterMap fun pos => t.asString[pos.1]?)
        (live.map Prod.snd)

def moveInverse (c : Content) (node : ElementId) : Option Inverse :=
  c.parents[node]?.bind fun home =>
    c.lists[home]?.bind fun l =>
      let slots := ((c.placements[node]?.getD []).filter fun p => p.list = home).map Placement.stamp
      slots.max?.bind fun slot =>
        (l.liveIndex slot).map fun index =>
          .op home (.xmlMove node (l.placeExcluding index (some slot)))

/-- Re-create the annotation about to be tombstoned over the same span, carrying its payload. -/
def rangedInverse (c : Content) (id : ElementId) : Option Inverse :=
  c.ranged[id]?.bind fun e =>
    if e.tombstone then none
    else
      let payload : Option Snap := match e.payload with
        | .scalar value _ => some (.scalar value)
        | .composite kind =>
          match kind with
          | .map | .list | .text => c.snapshot MAX_SNAPSHOT_DEPTH (.handle kind (payloadId id kind))
          | _ => none
      payload.map fun payload => .ranged e.start e.stop e.name payload id

/-- The inverse of every mutation whose undo is a single action. -/
def singleInverse (c : Content) (target : ElementId) (kind : OpKind) (stamp : Stamp) :
    Option Inverse :=
  match kind with
  | .registerSet key _ | .mapSet key _ | .mapDelete key | .mapCreate key | .listCreate key
  | .textCreate key | .xmlElementCreate key _ | .xmlFragmentCreate key => c.slotInverse target key
  | .listInsert _ _ | .xmlInsertChild _ _ => some (.op target (.listDelete stamp))
  | .listDelete id => c.listDeleteInverse target id
  | .textInsert s _ =>
    if s.isEmpty then none
    else some (.op target (.textDelete ((List.range s.length).map stamp.runMember)))
  | .textDelete ids => c.textDeleteInverse target ids
  | .xmlMove node _ => c.moveInverse node
  | .rangedCreate _ _ _ _ => some (.op target (.rangedDelete (rangedId stamp)))
  | .rangedSetPayload id _ =>
    c.ranged[id]?.bind fun e =>
      match e.payload with
      | .scalar value _ => some (.op target (.rangedSetPayload id value))
      | .composite _ => none
  | .rangedDelete id => c.rangedInverse id
  | .aclGrant _ _ _ _ _ => some (.op target (.aclRevoke (aclId stamp)))
  | .aclRevoke id =>
    c.acl[id]?.map fun e => .regrant target e.subject e.grant e.effect e.scope e.grantor id
  -- A reveal is never authored here, and a counter delta inverts to two steps.
  | .xmlReveal _ _ | .counterInc _ _ | .counterDec _ _ => none

/-- Cancel a counter delta, restoring the slot it re-wins. The slot step is recorded first so that
the reversed replay cancels the tally and then restores the slot. -/
def counterInverse (c : Content) (target : ElementId) (key : Bytes) (cancel : OpKind) : List Inverse :=
  let counter : ElementId := .derive target key .counter
  let held := (c.maps[target]?.bind fun m => m.get key).any fun e => e.id == some counter
  (if held then [] else (c.slotInverse target key).toList) ++ [.op target cancel]

/-- What would put the state back after `kind` lands on `target` with `stamp`. -/
def inverse (c : Content) (target : ElementId) (kind : OpKind) (stamp : Stamp) : List Inverse :=
  match kind with
  | .counterInc key amount => c.counterInverse target key (.counterDec key amount)
  | .counterDec key amount => c.counterInverse target key (.counterInc key amount)
  | other => (c.singleInverse target other stamp).toList

end Inverses

section Plans

def stepTarget : Inverse → ElementId
  | .op target _ => target
  | .reviveItem list _ _ _ | .reviveNode list _ _ _ _ => list
  | .reviveRun text _ _ _ => text
  | .regrant target _ _ _ _ _ _ => target
  | .ranged _ _ _ _ _ => ROOT_ID

/-- The element a step puts in a map slot, with the op that puts it there. -/
def installs : Inverse → Option (ElementId × ElementId × OpKind)
  | .op target kind =>
    let installed : Option ElementId := match kind with
      | .mapCreate key => some (.derive target key .map)
      | .listCreate key => some (.derive target key .list)
      | .textCreate key => some (.derive target key .text)
      | .xmlElementCreate key tag => some (XmlElement.nodeId target key tag)
      | .xmlFragmentCreate key => some (XmlFragment.nodeId target key)
      | _ => none
    installed.map fun id => (id, target, kind)
  | _ => none

def removes (c : Content) : Inverse → Option ElementId
  | .op target (.listDelete id) =>
    ((c.lists[target]?.bind fun l => l.nodeValue id).filter Element.isContainer).bind Element.id
  | _ => none

def underAnyLoop (c : Content) (roots : List ElementId) : Nat → ElementId → Bool
  | 0, _ => false
  | steps + 1, cur =>
    if cur ∈ roots then true
    else if cur = ROOT_ID then false
    else
      match c.parents[cur]? with
      | some parent => c.underAnyLoop roots steps parent
      | none => false

def underAny (c : Content) (id : ElementId) (roots : List ElementId) : Bool :=
  !roots.isEmpty && c.underAnyLoop roots (c.parents.size + 1) id

/-- Order an intention's inverses for replay: the last thing done first, less what a node the plan
removes holds, which leaves and comes back with it. -/
def plan (c : Content) (steps : List Inverse) : List Inverse :=
  let steps := steps.reverse
  let removed := steps.filterMap c.removes
  steps.filter fun step => !c.underAny (stepTarget step) removed

def reinstateLoop (c : Content) (installers : Registry (ElementId × OpKind)) :
    Nat → ElementId → List (ElementId × OpKind)
  | 0, _ => []
  | steps + 1, cur =>
    installers[cur]?.toList ++
      if cur = ROOT_ID then []
      else
        match c.parents[cur]? with
        | some parent => c.reinstateLoop installers steps parent
        | none => []

/-- The containers `target` sits under that the plan restores, outermost first. -/
def reinstatements (c : Content) (target : ElementId) (installers : Registry (ElementId × OpKind)) :
    List (ElementId × OpKind) :=
  (c.reinstateLoop installers (c.parents.size + 1) target).reverse

end Plans

end Content

end CrdtSync
