import CrdtSync.Core.Content
import CrdtSync.Core.ParentCycles

/-!
# What a snapshot gives back

The content a replica has once its own snapshot is decoded: what is written comes
back as it is, and the displaced flags, the placements that were left to the lists,
the created-under links and the fold of the moves are worked out again.
-/

namespace CrdtSync

open Lib
open Std (ExtTreeMap)

def Element.id? : Element → Option ElementId
  | .scalar _ => none
  | .register r => some r.id
  | .handle _ id => some id

/-- Forget which placements moves suppressed. -/
def FugueList.unmoved {V : Type} (l : FugueList V) : FugueList V :=
  { l with nodes := l.nodes.map fun _ n => { n with movedAway := false } }

/-- The last ids of its nodes and of its runs. -/
def FugueList.reaches {V : Type} (l : FugueList V) : List Stamp :=
  l.nodes.toList.map (fun n => seqStamp n.1) ++
    l.dead.toList.map fun run => runId (seqStamp run.1) (run.2.len - 1)

/-- The slots with each create no older than the container it holds. -/
def LwwMap.reread (m : LwwMap) : LwwMap :=
  { m with slots := m.slots.map fun _ e =>
      { e with container := higher e.container (e.value.bind fun v => createOf v e.stamp) } }

def LwwMap.reaches (m : LwwMap) : List Stamp :=
  m.slots.toList.flatMap fun (_, e) =>
    e.stamp :: (e.container.map ContainerCreate.stamp).toList ++
      match e.value with
      | some (.register r) => [r.stamp]
      | _ => []

namespace Content

section Reads

def liveValues (c : Content) : List Element :=
  (c.maps.toList.flatMap fun (_, m) => m.slots.toList.filterMap fun (_, e) => e.value) ++
    c.lists.toList.flatMap fun (_, l) => l.nodes.toList.map fun (_, n) => n.value

/-- Whether a reference names a container of its kind that is held. -/
def resolves (c : Content) : Element → Bool
  | .scalar _ | .register _ => true
  | .handle .map id => c.maps.contains id
  | .handle .list id => c.lists.contains id
  | .handle .text id => c.texts.contains id
  | .handle .counter id => c.counters.contains id
  | .handle .xmlElement id => c.xmlElements.contains id
  | .handle .xmlFragment id => c.xmlFragments.contains id
  | .handle .scalar _ | .handle .register _ => false

/-- The references, the halves and the payloads the decoder asks for are there, and so is
the root. -/
def wired (c : Content) : Bool :=
  c.maps.contains ROOT_ID && c.liveValues.all c.resolves &&
    (c.xmlElements.keys.all fun id =>
      c.maps.contains (XmlElement.attrsId id) && c.lists.contains (XmlElement.childrenId id)) &&
    (c.xmlFragments.keys.all fun id => c.lists.contains (XmlElement.childrenId id)) &&
    c.ranged.toList.all fun (id, e) =>
      match e.payload with
      | .scalar _ _ => true
      | .composite kind => c.resolves (.handle kind (payloadId id kind))

/-- The containers something holds: the root, an annotation, a live slot or node, or an
installed XML node. -/
def installed (c : Content) : Finset ElementId :=
  let payloads := c.ranged.toList.filterMap fun (id, e) =>
    match e.payload with
    | .scalar _ _ => none
    | .composite kind => some (payloadId id kind)
  let held := (ROOT_ID :: payloads ++ c.liveValues.filterMap Element.id?).toFinset
  let elements := c.xmlElements.keys.filter (· ∈ held)
  let fragments := c.xmlFragments.keys.filter (· ∈ held)
  held ∪ (elements.flatMap fun id => [XmlElement.attrsId id, XmlElement.childrenId id]).toFinset ∪
    (fragments.map XmlElement.childrenId).toFinset

/-- `mark_displaced`, over handles that come back clear and own their halves. -/
def markDisplaced (c : Content) : Content :=
  let away (id : ElementId) : Bool := decide (id ∉ c.installed)
  { c with
    maps := c.maps.map fun id m => { m with displaced := away id }
    lists := c.lists.map fun id l => { l with displaced := away id }
    texts := c.texts.map fun id t => { t with displaced := away id }
    counters := c.counters.map fun id n => { n with displaced := away id }
    xmlElements := c.xmlElements.map fun id x => ⟨x.tag, away id, true, true⟩
    xmlFragments := c.xmlFragments.map fun id _ => ⟨away id, true⟩ }

/-- The stamps the decoder notes as it reads. -/
def observedStamps (c : Content) : List Stamp :=
  (c.lists.toList.flatMap fun (_, l) => l.reaches) ++
    (c.texts.toList.flatMap fun (_, t) => t.reaches) ++
    (c.maps.toList.flatMap fun (_, m) => m.reaches) ++ c.moves.log.map LogOp.stamp ++
    (c.placements.toList.flatMap fun (_, places) => places.map Placement.stamp) ++
    c.ranged.toList.filterMap fun (_, e) =>
      match e.payload with
      | .scalar _ stamp => some stamp
      | .composite _ => none

end Reads

variable [IdBytes]

/-- The placements a snapshot spells out: those of a node that has moved or lost one. -/
def storedPlacements (c : Content) : Registry (List Placement) :=
  (c.placements.filter fun _ places => decide (1 < places.length) || places.any c.isTombstonedNode).map
    fun _ places => places.insertionSort fun p q =>
      (toLex (IdBytes.asBytes p.list, p.stamp) : Bytes ×ₗ Stamp) ≤ toLex (IdBytes.asBytes q.list, q.stamp)

/-- What a snapshot writes of the content, over handles that read as they come back. -/
def stored (c : Content) : Content where
  maps := c.maps.map fun _ m => { m with displaced := false }
  lists := c.lists.map fun _ l => { l.unmoved with displaced := false }
  texts := c.texts.map fun _ t => { t.unmoved with displaced := false }
  counters := c.counters.map fun _ n => { n with displaced := false }
  xmlElements := c.xmlElements.map fun _ x => ⟨x.tag, false, true, true⟩
  xmlFragments := c.xmlFragments.map fun _ _ => ⟨false, true⟩
  parents := c.parents
  moves := ⟨∅, ∅, c.moves.log.map fun op => { op with prevParent := none }⟩
  placements := c.storedPlacements
  placementIndex := ∅
  revealedPending := ∅
  ranged := c.ranged
  acl := c.acl

/-- The placements by key. Two at one key are refused. -/
def indexPlacements (rows : List (ElementId × Placement)) :
    Option (ExtTreeMap (ElementId ×ₗ Stamp) ElementId compare) :=
  rows.foldlM (fun index (node, p) =>
    if index.contains (placementKey p.list p.stamp) then none
    else some (index.insert (placementKey p.list p.stamp) node)) ∅

def childrenLists (c : Content) : List ElementId :=
  c.xmlElements.keys.map XmlElement.childrenId ++ c.xmlFragments.keys.map XmlElement.childrenId

/-- The movable nodes of a children list, each with the id it holds there. -/
def listedNodes (c : Content) (list : ElementId) : List (ElementId × Placement) :=
  match c.lists[list]? with
  | none => []
  | some l => l.nodes.toList.filterMap fun (key, n) =>
      match n.value with
      | .handle .xmlElement node | .handle .text node => some (node, ⟨list, seqStamp key⟩)
      | _ => none

/-- Give a node the place it is listed at, unless it has one or the place is taken. -/
def placeBirth (c : Content) (row : ElementId × Placement) : Content :=
  let (node, p) := row
  if c.placements.contains node || c.placementIndex.contains (placementKey p.list p.stamp) then c
  else
    { c.pushPlacement node p with
      placementIndex := c.placementIndex.insert (placementKey p.list p.stamp) node }

def reconstructBirths (c : Content) : Content :=
  let births := (c.childrenLists.flatMap c.listedNodes).filter fun row => !c.placements.contains row.1
  births.foldl placeBirth c

def birthPlacement (node : ElementId) (places : List Placement) : Option Placement :=
  places.find? fun p => bornAt p.list p.stamp node

def movableNodes (c : Content) : List ElementId := c.xmlElements.keys ++ c.texts.keys

/-- The created-under links a snapshot still names. -/
def namedBases (c : Content) : List (ElementId × ElementId) :=
  (c.placements.toList.filterMap fun (node, places) => do
      let birth ← birthPlacement node places
      let owner ← c.parents[birth.list]?
      some (node, owner)) ++
    ((c.movableNodes.filter fun node => !c.placements.contains node).filterMap fun node => do
      let list ← c.parents[node]?
      if c.lists.contains list then
        let owner ← c.parents[list]?
        some (node, owner)
      else none) ++
    c.parents.toList.filter fun (_, parent) => !c.lists.contains parent

def reseedBases (c : Content) : Content :=
  { c with moves := c.namedBases.foldl (fun m (node, owner) => m.setBase node owner) c.moves }

/-- Every movable node under a children list that has no placement awaits its first. -/
def restoreUnplaced (c : Content) : Content :=
  let unplaced := c.movableNodes.filter fun node =>
    !c.placements.contains node && c.parents[node]?.any fun parent => c.lists.contains parent
  { c with revealedPending := c.revealedPending ∪ unplaced.toFinset }

/-- Rebuild the moves over what was read, refusing parents that close a cycle. -/
def restoreMoves (c : Content) (log : List LogOp) : Option Content :=
  let c := c.reconstructBirths.reseedBases.restoreUnplaced
  let replay (m : TreeMoves) (op : LogOp) := m.apply op.stamp op.child op.parent
  let c := { c with moves := log.foldl replay c.moves }.refoldMoves
  match rejectParentCycles c.parents ROOT_ID with
  | .ok _ => some c
  | .error _ => none

/-- The content `read_state` builds from what `encode_state` wrote of this one. -/
def restored (c : Content) : Option Content :=
  match rejectParentCycles c.parents ROOT_ID with
  | .error _ => none
  | .ok _ =>
    if !c.wired then none
    else do
      let index ← indexPlacements (c.storedPlacements.toList.flatMap fun (node, places) =>
        places.map fun p => (node, p))
      let read : Content := { c with
        maps := c.maps.map fun _ m => m.reread
        lists := c.lists.map fun _ l => l.unmoved
        moves := TreeMoves.new
        placements := c.storedPlacements
        placementIndex := index
        revealedPending := ∅ }
      read.markDisplaced.restoreMoves c.moves.log

instance : Folds Content where
  ready := ready
  applyKind := applyKind
  restored := restored
  observedStamps := observedStamps

end Content

end CrdtSync
