import CrdtSync.Core.Document
import CrdtSync.Core.Element
import CrdtSync.Core.TreeMoves

/-!
# The content of a document

Every container the replica has materialised, kept by id whether or not a slot
still shows it; the parent links and the move log over them; the placements of
movable nodes; and the document-level annotation and authorization sets. One
mutation of the closed set is routed to its container here.
-/

namespace CrdtSync

open Lib
open Std (ExtTreeMap)

abbrev Registry (α : Type) := ExtTreeMap ElementId α compare

def ROOT_ID : ElementId := .fromBytes 0x63726474_73796e63_00000000_726f6f74

/-- The namespaces ranged and ACL ids derive under. -/
def RANGED_NS : ElementId := .fromBytes 0x63726474_73796e63_0072616e_67656400

def ACL_NS : ElementId := .fromBytes 0x63726474_73796e63_0061636c_00000000

/-- An XML element. The halves are its own handles unless the registry already
held another one under their id. -/
structure XmlElement where
  tag : Bytes
  displaced : Bool
  ownsAttrs : Bool
  ownsChildren : Bool
deriving DecidableEq

structure XmlFragment where
  displaced : Bool
  ownsChildren : Bool
deriving DecidableEq

namespace XmlElement

def nodeId (parent : ElementId) (key tag : Bytes) : ElementId :=
  .derive (.derive parent key .xmlElement) tag .xmlElement

def attrsId (id : ElementId) : ElementId := .derive id [97, 116, 116, 114, 115] .map

def childrenId (id : ElementId) : ElementId :=
  .derive id [99, 104, 105, 108, 100, 114, 101, 110] .list

end XmlElement

def XmlFragment.nodeId (parent : ElementId) (key : Bytes) : ElementId :=
  .derive parent key .xmlFragment

def stampKey (stamp : Stamp) : Bytes := leBytes 8 stamp.lamport ++ stamp.client.asBytes

def xmlChildId (list : ElementId) (stamp : Stamp) (kind : ElementKind) : ElementId :=
  .derive list (stampKey stamp) kind

def rangedId (stamp : Stamp) : ElementId := .derive RANGED_NS (stampKey stamp) .scalar

def aclId (stamp : Stamp) : ElementId := .derive ACL_NS (stampKey stamp) .scalar

def payloadId (ranged : ElementId) (kind : ElementKind) : ElementId :=
  .derive ranged [112, 97, 121, 108, 111, 97, 100] kind

/-- A movable node's position: a children list and the id it holds there. -/
structure Placement where
  list : ElementId
  stamp : Stamp
deriving DecidableEq

inductive Payload
  | scalar (value : Scalar) (stamp : Stamp)
  | composite (kind : ElementKind)
deriving DecidableEq

structure RangedEntry where
  start : RangeAnchor
  stop : RangeAnchor
  payload : Payload
  name : Option Bytes
  tombstone : Bool
deriving DecidableEq

/-- A write to a scalar payload; a composite is edited through its container. -/
def RangedEntry.setPayload (e : RangedEntry) (value : Scalar) (stamp : Stamp) : RangedEntry :=
  match e.payload with
  | .scalar _ last => if last < stamp then { e with payload := .scalar value stamp } else e
  | .composite _ => e

structure AclEntry where
  subject : AclSubject
  grant : AclGrant
  effect : AclEffect
  scope : AclScope
  grantor : ClientId
  revokers : Finset ClientId
deriving DecidableEq

instance placementKey_transOrd : Std.TransOrd (ElementId ×ₗ Stamp) := inferInstance

structure Content where
  maps : Registry LwwMap
  lists : Registry (FugueList Element)
  texts : Registry (FugueList Element)
  counters : Registry Counter
  xmlElements : Registry XmlElement
  xmlFragments : Registry XmlFragment
  parents : Parents
  moves : TreeMoves
  placements : Registry (List Placement)
  placementIndex : ExtTreeMap (ElementId ×ₗ Stamp) ElementId compare
  revealedPending : Finset ElementId
  ranged : Registry RangedEntry
  acl : Registry AclEntry
deriving DecidableEq

def Content.counterValue (c : Content) (id : ElementId) : Int :=
  (c.counters[id]?.map Counter.read).getD 0

/-- How a claim on a placement key was settled. -/
inductive Claim
  | fresh
  | joined
  | evicted
  | refused
deriving DecidableEq

inductive Container
  | map
  | list
  | text
  | xmlElement (tag : Bytes)
  | xmlFragment

def Container.elementKind : Container → ElementKind
  | map => .map
  | list => .list
  | text => .text
  | xmlElement _ => .xmlElement
  | xmlFragment => .xmlFragment

namespace Content

def new : Content where
  maps := (∅ : Registry LwwMap).insert ROOT_ID (LwwMap.new ROOT_ID)
  lists := ∅
  texts := ∅
  counters := ∅
  xmlElements := ∅
  xmlFragments := ∅
  parents := ∅
  moves := TreeMoves.new
  placements := ∅
  placementIndex := ∅
  revealedPending := ∅
  ranged := ∅
  acl := ∅

def placementKey (list : ElementId) (stamp : Stamp) : ElementId ×ₗ Stamp := toLex (list, stamp)

section Displacement

def setMapDisplaced (c : Content) (id : ElementId) (away : Bool) : Content :=
  { c with maps := c.maps.modify id fun m => { m with displaced := away } }

def setListDisplaced (c : Content) (id : ElementId) (away : Bool) : Content :=
  { c with lists := c.lists.modify id fun l => { l with displaced := away } }

/-- Flag a handle displaced or installed, an XML node together with its halves. -/
def setDisplaced (c : Content) (away : Bool) : Element → Content
  | .handle .map id => c.setMapDisplaced id away
  | .handle .list id => c.setListDisplaced id away
  | .handle .text id =>
    { c with texts := c.texts.modify id fun t => { t with displaced := away } }
  | .handle .counter id =>
    { c with counters := c.counters.modify id fun n => { n with displaced := away } }
  | .handle .xmlElement id =>
    match c.xmlElements[id]? with
    | none => c
    | some x =>
      let c := { c with xmlElements := c.xmlElements.insert id { x with displaced := away } }
      let c := if x.ownsAttrs then c.setMapDisplaced (XmlElement.attrsId id) away else c
      if x.ownsChildren then c.setListDisplaced (XmlElement.childrenId id) away else c
  | .handle .xmlFragment id =>
    match c.xmlFragments[id]? with
    | none => c
    | some f =>
      let c := { c with xmlFragments := c.xmlFragments.insert id { f with displaced := away } }
      if f.ownsChildren then c.setListDisplaced (XmlElement.childrenId id) away else c
  | _ => c

def displace (c : Content) (e : Element) : Content := c.setDisplaced true e

def reinstate (c : Content) (e : Element) : Content := c.setDisplaced false e

/-- Store a map after a write, displacing what the write evicted. -/
def putMap (c : Content) (id : ElementId) (written : LwwMap × Option Element) : Content :=
  let c := { c with maps := c.maps.insert id written.1 }
  match written.2 with
  | some old => c.displace old
  | none => c

def shows (c : Content) (map : ElementId) (key : Bytes) (element : Element) : Bool :=
  (c.maps[map]?.bind fun m => m.get key).any fun cur => cur.sameHandle element

/-- Install a registered handle in a slot. A losing create leaves it displaced. -/
def installAt (c : Content) (map : ElementId) (m : LwwMap) (key : Bytes) (element : Element)
    (stamp : Stamp) : Content :=
  let c := c.putMap map (m.set key element stamp)
  if c.shows map key element then c.reinstate element else c.displace element

end Displacement

section Containers

/-- Record a created-under link, in the parent map and under the move log. -/
def link (c : Content) (child parent : ElementId) : Content :=
  { c with parents := c.parents.insert child parent, moves := c.moves.setBase child parent }

def registerMap (c : Content) (id : ElementId) : Content :=
  { c with maps := c.maps.insertIfNew id (LwwMap.new id) }

def registerList (c : Content) (id : ElementId) : Content :=
  { c with lists := c.lists.insertIfNew id (FugueList.new id) }

/-- Materialise and register a container on first sight. -/
def register (c : Content) (id : ElementId) : Container → Content
  | .map => c.registerMap id
  | .list => c.registerList id
  | .text => { c with texts := c.texts.insertIfNew id (FugueList.new id) }
  | .xmlElement tag =>
    let attrs := XmlElement.attrsId id
    let children := XmlElement.childrenId id
    let fresh : XmlElement :=
      ⟨tag, false, !c.maps.contains attrs, !c.lists.contains children⟩
    let c := { c with xmlElements := c.xmlElements.insertIfNew id fresh }
    let c := (c.registerMap attrs).registerList children
    let c := { c with parents := (c.parents.insert attrs id).insert children id }
    { c with moves := (c.moves.setBase attrs id).setBase children id }
  | .xmlFragment =>
    let children := XmlElement.childrenId id
    let fresh : XmlFragment := ⟨false, !c.lists.contains children⟩
    let c := { c with xmlFragments := c.xmlFragments.insertIfNew id fresh }
    (c.registerList children).link children id

def containerId (map : ElementId) (key : Bytes) : Container → ElementId
  | .xmlElement tag => XmlElement.nodeId map key tag
  | .xmlFragment => XmlFragment.nodeId map key
  | kind => .derive map key kind.elementKind

def createContainer (c : Content) (map : ElementId) (key : Bytes) (stamp : Stamp)
    (kind : Container) : Content :=
  if !c.maps.contains map then c
  else
    let child := containerId map key kind
    let c := c.register child kind
    match c.maps[map]? with
    | none => c
    | some m => (c.installAt map m key (.handle kind.elementKind child) stamp).link child map

def installPayload (c : Content) (ranged : ElementId) (kind : ElementKind) : Content :=
  let install (container : Container) : Content :=
    (c.register (payloadId ranged kind) container).link (payloadId ranged kind) ranged
  match kind with
  | .map => install .map
  | .list => install .list
  | .text => install .text
  | _ => c

end Containers

section Sequences

variable [IdBytes]

def onList (c : Content) (id : ElementId) (f : FugueList Element → FugueList Element) : Content :=
  { c with lists := c.lists.modify id f }

def onText (c : Content) (id : ElementId) (f : FugueList Element → FugueList Element) : Content :=
  { c with texts := c.texts.modify id f }

/-- The codepoints of a run, each hanging to the right of the one before. -/
def insertRun (base : Stamp) : Nat → List Char → Anchor → FugueList Element → FugueList Element
  | _, [], _, t => t
  | k, c :: s, anchor, t =>
    let id := base.runMember k
    insertRun base (k + 1) s ⟨some id, .right⟩
      (t.insertAt id (.scalar (.int c.toNat)) anchor)

def deleteIds (ids : List Stamp) (t : FugueList Element) : FugueList Element :=
  ids.foldl FugueList.deleteId t

end Sequences

section Tree

def isTombstonedNode (c : Content) (p : Placement) : Bool :=
  c.lists[p.list]?.any fun l => l.isTombstoned p.stamp

/-- The placement that renders: the highest-stamped one in the node's effective
parent's list, unless any placement of the node was deleted. -/
def livePlacement (c : Content) (effList : ElementId) (places : List Placement) : Option Stamp :=
  if places.any c.isTombstonedNode then none
  else ((places.filter fun p => p.list = effList).map Placement.stamp).max?

/-- The children list a placed node renders in, if anything governs it. -/
def effectiveList (c : Content) (node : ElementId) : Option ElementId :=
  (c.moves.parentOf node).map XmlElement.childrenId

/-- Every placement of a node, with whether it is away. -/
def suppressions (c : Content) (effList : ElementId) (places : List Placement) :
    List (Placement × Bool) :=
  places.map fun p =>
    (p, !(p.list = effList && some p.stamp = c.livePlacement effList places))

def setAway (c : Content) (p : Placement) (away : Bool) : Content :=
  { c with lists := c.lists.modify p.list fun l => l.setMovedAway p.stamp away }

def governed (c : Content) : List (ElementId × ElementId × List Placement) :=
  c.placements.toList.filterMap fun (node, places) =>
    (c.effectiveList node).map fun effList => (node, effList, places)

/-- Re-derive which placement of every movable node renders, and re-point its
parent link at the list that does. -/
def refoldMoves (c : Content) : Content :=
  let folded := (c.governed.flatMap fun (_, effList, places) => c.suppressions effList places).foldl
    (fun c (p, away) => c.setAway p away) c
  { folded with
    parents := c.governed.foldl (fun parents (node, effList, _) => parents.insert node effList)
      c.parents }

variable [IdBytes]

/-- Whether a node is a child a birth at the position derives. -/
def bornAt (list : ElementId) (stamp : Stamp) (node : ElementId) : Bool :=
  xmlChildId list stamp .xmlElement = node || xmlChildId list stamp .text = node

/-- Whether a claimant takes a position from the node holding it: a birth over a
move, then the smaller id. -/
def outranks (list : ElementId) (stamp : Stamp) (node held : ElementId) : Bool :=
  match bornAt list stamp node, bornAt list stamp held with
  | true, false => true
  | false, true => false
  | _, _ => decide (IdBytes.asBytes node < IdBytes.asBytes held)

/-- Take a position away from the node that lost it. -/
def evictPlacement (c : Content) (list : ElementId) (stamp : Stamp) (held : ElementId) : Content :=
  let c := match c.parents[list]? with
    | some owner => { c with moves := c.moves.remove stamp held owner }
    | none => c
  match c.placements[held]? with
  | none => c
  | some places =>
    let rest := places.filter fun p => !(p.list = list && p.stamp = stamp)
    if !rest.isEmpty then { c with placements := c.placements.insert held rest }
    else
      { c with
        placements := c.placements.erase held
        revealedPending := insert held c.revealedPending
        parents := match c.moves.parentOf held with
          | some owner => c.parents.insert held (XmlElement.childrenId owner)
          | none => c.parents.erase held }

/-- Decide who owns a position when `node` asks for it, and record the answer. -/
def claimPlacement (c : Content) (list : ElementId) (stamp : Stamp) (node : ElementId) :
    Claim × Content :=
  let key := placementKey list stamp
  match c.placementIndex[key]? with
  | none => (.fresh, { c with placementIndex := c.placementIndex.insert key node })
  | some held =>
    if held = node then (.joined, c)
    else if !outranks list stamp node held then (.refused, c)
    else
      let c := c.evictPlacement list stamp held
      (.evicted, { c with placementIndex := c.placementIndex.insert key node })

def seatClaim (c : Content) (claim : Claim) (list : ElementId) (stamp : Stamp) (element : Element)
    (anchor : Anchor) : Content :=
  match claim with
  | .fresh => c.onList list fun l => l.insertAt stamp element anchor
  | .joined => c.onList list fun l => l.rejoin stamp element anchor
  | .evicted => c.onList list fun l => l.reseat stamp element anchor
  | .refused => c

def pushPlacement (c : Content) (node : ElementId) (p : Placement) : Content :=
  { c with placements := c.placements.insert node ((c.placements[node]?.getD []) ++ [p]) }

def insertXmlChild (c : Content) (list : ElementId) (tag : Option Bytes) (anchor : Anchor)
    (stamp : Stamp) : Content :=
  if !c.lists.contains list then c
  else
    let kind : ElementKind := match tag with
      | some _ => .xmlElement
      | none => .text
    let container : Container := match tag with
      | some t => .xmlElement t
      | none => .text
    let child := xmlChildId list stamp kind
    let c := c.register child container
    let c := { c with parents := c.parents.insert child list }
    let (claim, c) := c.claimPlacement list stamp child
    let c := c.seatClaim claim list stamp (.handle kind child) anchor
    let c := match claim with
      | .refused =>
        if c.placements.contains child then c
        else { c with revealedPending := insert child c.revealedPending }
      | .joined => c
      | .fresh | .evicted =>
        { c.pushPlacement child ⟨list, stamp⟩ with
          revealedPending := c.revealedPending.erase child }
    let c := match c.parents[list]? with
      | some owner => { c with moves := c.moves.setBase child owner }
      | none => c
    match claim with
    | .joined | .evicted => c.refoldMoves
    | .fresh | .refused => c

def nodeElement (c : Content) (node : ElementId) : Option Element :=
  if c.xmlElements.contains node then some (.handle .xmlElement node)
  else if c.texts.contains node then some (.handle .text node)
  else none

/-- Whether a node lives in a children sequence or awaits its first place in one. -/
def isMovable (c : Content) (node : ElementId) : Bool :=
  c.placements.contains node || decide (node ∈ c.revealedPending)

/-- Relocate a node under the destination children list. -/
def applyMove (c : Content) (dest : ElementId) (node : ElementId) (anchor : Anchor)
    (stamp : Stamp) : Content :=
  if !c.isMovable node || !c.lists.contains dest then c
  else
    match c.parents[dest]?, c.nodeElement node with
    | some owner, some element =>
      let (claim, c) := c.claimPlacement dest stamp node
      match claim with
      | .refused => c
      | _ =>
        let c := c.seatClaim claim dest stamp element anchor
        let c := if claim = .joined then c else c.pushPlacement node ⟨dest, stamp⟩
        let c := { c with moves := c.moves.apply stamp node owner }
        { c with revealedPending := c.revealedPending.erase node }.refoldMoves
    | _, _ => c

/-- Materialise a movable node's shell with no placement. -/
def applyReveal (c : Content) (node : ElementId) (tag : Option Bytes) : Content :=
  if (c.nodeElement node).isSome then c
  else
    let c := c.register node (match tag with
      | some t => .xmlElement t
      | none => .text)
    { c with revealedPending := insert node c.revealedPending }

/-- Tombstone a sequence node; a deleted placement re-folds the moves. -/
def deleteFromList (c : Content) (list : ElementId) (id : Stamp) : Content :=
  let c := c.onList list fun l => l.deleteId id
  if c.placementIndex.contains (placementKey list id) then c.refoldMoves else c

end Tree

section Sets

def createRanged (c : Content) (stamp : Stamp) (start stop : RangeAnchor) (payload : RangedInit)
    (name : Option Bytes) : Content :=
  let rid := rangedId stamp
  if c.ranged.contains rid then c
  else
    let (c, stored) := match payload with
      | .scalar value => (c, Payload.scalar value stamp)
      | .composite kind => (c.installPayload rid kind, Payload.composite kind)
    { c with ranged := c.ranged.insert rid ⟨start, stop, stored, name, false⟩ }

end Sets

section Counters

/-- Fold a counter delta in and contend for the slot with it. -/
def applyCounter (c : Content) (map : ElementId) (key : Bytes) (stamp : Stamp)
    (delta : Counter → Counter) : Content :=
  match c.maps[map]? with
  | none => c
  | some m =>
    let id : ElementId := .derive map key .counter
    let counter := c.counters[id]?.getD Counter.new
    let c := { c with counters := c.counters.insert id (delta counter) }
    c.installAt map m key (.handle .counter id) stamp

end Counters

section Routing

variable [IdBytes]

def onMap (c : Content) (map : ElementId) (write : LwwMap → LwwMap × Option Element) : Content :=
  match c.maps[map]? with
  | none => c
  | some m => c.putMap map (write m)

def applyKind (c : Content) (target : ElementId) (kind : OpKind) (stamp : Stamp)
    (author : ClientId) : Content :=
  match kind with
  | .listInsert value anchor =>
    c.onList target fun l => l.insertAt stamp (.scalar value) anchor
  | .listDelete id => c.deleteFromList target id
  | .xmlInsertChild tag anchor => c.insertXmlChild target tag anchor stamp
  | .xmlMove node anchor => c.applyMove target node anchor stamp
  | .xmlReveal node tag => c.applyReveal node tag
  | .rangedCreate start stop payload name => c.createRanged stamp start stop payload name
  | .rangedSetPayload id value =>
    { c with ranged := c.ranged.modify id fun e => e.setPayload value stamp }
  | .rangedDelete id => { c with ranged := c.ranged.modify id fun e => { e with tombstone := true } }
  | .aclGrant subject grant effect scope grantor =>
    { c with acl := c.acl.insertIfNew (aclId stamp) ⟨subject, grant, effect, scope, grantor, ∅⟩ }
  | .aclRevoke id =>
    { c with acl := c.acl.modify id fun e => { e with revokers := insert author e.revokers } }
  | .textInsert s anchor => c.onText target fun t => insertRun stamp 0 s anchor t
  | .textDelete ids => c.onText target (deleteIds ids)
  | .mapCreate key => c.createContainer target key stamp .map
  | .listCreate key => c.createContainer target key stamp .list
  | .textCreate key => c.createContainer target key stamp .text
  | .xmlElementCreate key tag => c.createContainer target key stamp (.xmlElement tag)
  | .xmlFragmentCreate key => c.createContainer target key stamp .xmlFragment
  | .counterInc key amount => c.applyCounter target key stamp fun n => n.inc author amount
  | .counterDec key amount => c.applyCounter target key stamp fun n => n.dec author amount
  | .mapSet key value => c.onMap target fun m => m.set key (.scalar value) stamp
  | .mapDelete key => c.onMap target fun m => m.delete key stamp
  | .registerSet key value => c.onMap target fun m => m.setRegister key value stamp

end Routing

section Readiness

/-- Whether a container is displaced, or `none` when this replica holds no such
container. A range is a virtual container, always installed. -/
def displacedContainer (c : Content) (id : ElementId) : Option Bool :=
  c.maps[id]?.map LwwMap.displaced
    |>.or (c.lists[id]?.map FugueList.displaced)
    |>.or (c.texts[id]?.map FugueList.displaced)
    |>.or (c.xmlElements[id]?.map XmlElement.displaced)
    |>.or (c.xmlFragments[id]?.map XmlFragment.displaced)
    |>.or (c.ranged[id]?.map fun _ => false)

/-- One step up: the recorded parent, or the root for a range with none. -/
def parentOf (c : Content) (id : ElementId) : Option ElementId :=
  match c.parents[id]? with
  | some parent => some parent
  | none => if c.ranged.contains id then some ROOT_ID else none

def materialisedLoop (c : Content) : Nat → ElementId → Bool
  | 0, _ => false
  | steps + 1, cur =>
    if cur = ROOT_ID then true
    else if (c.displacedContainer cur).isNone then false
    else
      match c.parentOf cur with
      | some parent => c.materialisedLoop steps parent
      | none => false

/-- Whether a container and every ancestor up to the root is held here. -/
def materialised (c : Content) (target : ElementId) : Bool :=
  c.materialisedLoop (c.parents.size + 1) target

/-- Whether an op can apply now. -/
def ready (c : Content) (op : Op) : Bool :=
  match op.kind with
  | .xmlInsertChild _ _ => c.lists.contains op.target
  | .xmlMove node _ => c.lists.contains op.target && c.isMovable node
  | .listDelete id => c.lists[op.target]?.any fun l => l.contains id
  | .textDelete ids => c.materialised op.target &&
      c.texts[op.target]?.any fun t => ids.all t.contains
  | .rangedSetPayload id _ | .rangedDelete id => c.materialised op.target && c.ranged.contains id
  | .aclRevoke id => c.materialised op.target && c.acl.contains id
  | _ => c.materialised op.target

end Readiness

end Content

end CrdtSync
