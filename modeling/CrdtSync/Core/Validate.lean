import CrdtSync.Core.Inverse
import CrdtSync.Core.FuguePositions
import CrdtSync.Core.Zone

/-!
# Schema state validation

A walk of a document's element tree against a schema over an explicit stack. What is wrong with
an element is reported every time it is reached, and it is descended into once, so the walk ends
on a graph whose slots share elements or loop back as well.
-/

namespace CrdtSync

open Lib
open Std (ExtTreeMap)

namespace Validate

/-- One step down the element tree: a slot key, or an item's index. -/
inductive Step
  | key (key : Bytes)
  | index (i : Nat)
deriving DecidableEq

inductive ViolationKind
  | kindMismatch (expected found : ElementKind)
  | unknownSlot
  | belowMin (value min : Int)
  | aboveMax (value max : Int)
  | tooLong (len max : Nat)
  | disallowedAttr
  | disallowedChild
  | excessChild (max : Nat)
  | orphanInline (block : String)
  | mistypedAttr (expected found : ElementKind)
  | crossZoneAnchor (id : ElementId)
deriving DecidableEq

/-- Whether an enforcing server refuses the op that introduces the violation. -/
def ViolationKind.rejectsAtIngress : ViolationKind → Bool
  | .kindMismatch _ _ => true
  | _ => false

structure Violation where
  path : List Step
  kind : ViolationKind
deriving DecidableEq

def expectedKind : TypeDef → ElementKind
  | .map _ => .map
  | .list _ _ => .list
  | .text _ => .text
  | .register _ _ => .register
  | .counter _ _ => .counter
  | .xml (some _) _ _ _ _ => .xmlElement
  | .xml none _ _ _ _ => .xmlFragment

end Validate

namespace Content

/-! ### What a handle reads -/

def mapOf (c : Content) (id : ElementId) : LwwMap := c.maps[id]?.getD (LwwMap.new id)

def listOf (c : Content) (id : ElementId) : FugueList Element := c.lists[id]?.getD (FugueList.new id)

def textOf (c : Content) (id : ElementId) : FugueList Element := c.texts[id]?.getD (FugueList.new id)

/-- An XML element's attributes. A half the registry held another handle for is one of its own
that nothing writes to. -/
def attrsOf (c : Content) (id : ElementId) : LwwMap :=
  if (c.xmlElements[id]?).any XmlElement.ownsAttrs then c.mapOf (XmlElement.attrsId id)
  else LwwMap.new (XmlElement.attrsId id)

/-- The children of an XML node, by the same rule. -/
def childrenOf (c : Content) (kind : ElementKind) (id : ElementId) : FugueList Element :=
  let owns := match kind with
    | .xmlElement => (c.xmlElements[id]?).any XmlElement.ownsChildren
    | _ => (c.xmlFragments[id]?).any XmlFragment.ownsChildren
  if owns then c.listOf (XmlElement.childrenId id) else FugueList.new (XmlElement.childrenId id)

def tagOf (c : Content) (id : ElementId) : Option Bytes := c.xmlElements[id]?.map XmlElement.tag

end Content

namespace Validate

section Types

/-- The type a map slot holds. Where a slot is declared twice the last one counts. -/
def slotType (children : List (String × String)) (key : Bytes) : Option String :=
  (children.reverse.find? fun child => asBytes child.1 = key).map Prod.snd

def attrType (attrs : List (String × String)) (key : Bytes) : Option String :=
  (attrs.find? fun attr => asBytes attr.1 = key).map Prod.snd

def fits (c : Content) (child : Element) : TypeDef → Bool
  | .xml (some tag) _ _ _ _ => child.kind == .xmlElement &&
      (child.id.bind c.tagOf) == some (asBytes tag)
  | .xml none _ _ _ _ => child.kind == .xmlFragment
  | other => expectedKind other == child.kind

/-- The declared type of an XML child: the first allowed one it fits. -/
def resolveChildType (c : Content) (schema : Schema) (child : Element)
    (allowed : List (String × Option Nat)) : Option String :=
  (allowed.find? fun entry => (schema.typeDef entry.1).any (fits c child)).map Prod.fst

def overCap (resolved : List (Option String)) (stamps : List Stamp) (name : String) (max : Nat) :
    List Nat :=
  let instances := stamps.zipIdx.filter fun entry => resolved[entry.2]? = some (some name)
  if max < instances.length then
    ((instances.insertionSort fun a b => b.1 ≤ a.1).take (instances.length - max)).map Prod.snd
  else []

/-- The cap a child is over, by the last type declared that drops it. -/
def excess (children : List (String × Option Nat)) (resolved : List (Option String))
    (stamps : List Stamp) (i : Nat) : Option Nat :=
  (children.reverse.find? fun entry =>
    entry.2.any fun max => decide (i ∈ overCap resolved stamps entry.1 max)).bind Prod.snd

end Types

inductive Work
  | check (element : Element) (typeName : String) (path : List Step)
  | unknownSlot (path : List Step)
  | report (path : List Step) (kind : ViolationKind)
deriving DecidableEq

section Queues

variable (c : Content) (schema : Schema)

def slotWork (children : List (String × String)) (path : List Step) (slot : Bytes × Element) : Work :=
  match slotType children slot.1 with
  | some childType => .check slot.2 childType (path ++ [.key slot.1])
  | none => .unknownSlot (path ++ [.key slot.1])

def queueSlots (children : List (String × String)) (m : LwwMap) (path : List Step) : List Work :=
  m.entries.map (slotWork children path)

def queueItems (items : String) (l : FugueList Element) (path : List Step) : List Work :=
  l.values.zipIdx.map fun item => .check item.1 items (path ++ [.index item.2])

def attrWork (attrs : List (String × String)) (path : List Step) (attr : Bytes × Element) : Work :=
  match attrType attrs attr.1 with
  | none => .report (path ++ [.key attr.1]) .disallowedAttr
  | some ty =>
    match (schema.typeDef ty).map expectedKind with
    | some expected =>
      if expected ≠ attr.2.kind then
        .report (path ++ [.key attr.1]) (.mistypedAttr expected attr.2.kind)
      else .check attr.2 ty (path ++ [.key attr.1])
    | none => .check attr.2 ty (path ++ [.key attr.1])

def checkXmlAttrs (attrs : List (String × String)) (m : LwwMap) (path : List Step) : List Work :=
  m.entries.map (attrWork schema attrs path)

def misfit (orphanInline : Option String) (child : Element) : ViolationKind :=
  match orphanInline with
  | some block => if child.kind = .text then .orphanInline block else .disallowedChild
  | none => .disallowedChild

/-- The cap the `i`-th child is over, of the children as they resolve. -/
def overExcess (children : List (String × Option Nat)) (l : FugueList Element) (i : Nat) : Option Nat :=
  excess children (l.values.map fun child => resolveChildType c schema child children)
    (l.liveOrder.take l.values.length) i

def childWork (children : List (String × Option Nat)) (orphanInline : Option String)
    (l : FugueList Element) (path : List Step) (child : Element × Nat) : Work :=
  match overExcess c schema children l child.2 with
  | some max => .report (path ++ [.index child.2]) (.excessChild max)
  | none =>
    match resolveChildType c schema child.1 children with
    | some childType => .check child.1 childType (path ++ [.index child.2])
    | none => .report (path ++ [.index child.2]) (misfit orphanInline child.1)

def queueXmlChildren (children : List (String × Option Nat)) (orphanInline : Option String)
    (l : FugueList Element) (path : List Step) : List Work :=
  l.values.zipIdx.map (childWork c schema children orphanInline l path)

/-- What is under an element of a type, in tree order: attributes before children. -/
def queueUnder (td : TypeDef) (element : Element) (path : List Step) : List Work :=
  match td, element with
  | .map children, .handle .map id => queueSlots children (c.mapOf id) path
  | .list items _, .handle .list id => queueItems items (c.listOf id) path
  | .xml _ children attrs _ orphanInline, .handle .xmlElement id =>
    checkXmlAttrs schema attrs (c.attrsOf id) path ++
      queueXmlChildren c schema children orphanInline (c.childrenOf .xmlElement id) path
  | .xml _ children _ _ orphanInline, .handle .xmlFragment id =>
    queueXmlChildren c schema children orphanInline (c.childrenOf .xmlFragment id) path
  | _, _ => []

end Queues

section Own

def checkMaxLen (len : Nat) (max : Option Nat) : Option ViolationKind :=
  match max with
  | some max => if max < len then some (.tooLong len max) else none
  | none => none

def checkBounds (v : Int) (min max : Option Int) : Option ViolationKind :=
  match min.filter fun min => decide (v < min) with
  | some min => some (.belowMin v min)
  | none => (max.filter fun max => decide (max < v)).map (.aboveMax v)

def ownViolation (c : Content) (td : TypeDef) (element : Element) : Option ViolationKind :=
  match td, element with
  | .list _ max, .handle .list id => checkMaxLen (c.listOf id).len max
  | .text max, .handle .text id => checkMaxLen (c.textOf id).len max
  | .register min max, .register r =>
    match r.value with
    | .int v => checkBounds v min max
    | _ => none
  | .counter min max, .handle .counter id => checkBounds (c.counterValue id) min max
  | _, _ => none

end Own

structure Validator where
  visited : Finset ElementId
  out : List Violation
  stack : List Work
  seqPaths : ExtTreeMap ElementId (List Step) compare

section Walk

variable (c : Content) (schema : Schema)

def Validator.locate (v : Validator) (element : Element) (path : List Step) : Validator :=
  match element.id with
  | some id => { v with seqPaths := v.seqPaths.insertIfNew id path }
  | none => v

/-- Check one element against a type, and the first time queue what is under it. -/
def Validator.check (v : Validator) (element : Element) (typeName : String) (path : List Step) :
    Validator :=
  match schema.typeDef typeName with
  | none => v
  | some td =>
    let v := v.locate element path
    if element.kind ≠ expectedKind td then
      { v with out := v.out ++ [⟨path, .kindMismatch (expectedKind td) element.kind⟩] }
    else
      let v := { v with
        out := v.out ++ ((ownViolation c td element).map fun kind => ⟨path, kind⟩).toList }
      match element.id with
      | none => v
      | some id =>
        if id ∈ v.visited then v
        else
          { v with
            visited := insert id v.visited
            stack := queueUnder c schema td element path ++ v.stack }

def Validator.work (v : Validator) : Work → Validator
  | .unknownSlot path => { v with out := v.out ++ [⟨path, .unknownSlot⟩] }
  | .report path kind => { v with out := v.out ++ [⟨path, kind⟩] }
  | .check element typeName path => v.check c schema element typeName path

def Validator.loop : Nat → Validator → Validator
  | 0, v => v
  | fuel + 1, v =>
    match v.stack with
    | [] => v
    | w :: stack => loop fuel (({ v with stack } : Validator).work c schema w)

/-- How many slots, items, attributes and children an element can bring on the stack. -/
def degree (id : ElementId) : Nat :=
  (c.mapOf id).entries.length + (c.listOf id).values.length + (c.attrsOf id).entries.length +
    (c.childrenOf .xmlElement id).values.length + (c.childrenOf .xmlFragment id).values.length

def branching : List ElementId :=
  (c.maps.keys ++ c.lists.keys ++ c.xmlElements.keys ++ c.xmlFragments.keys).dedup

/-- The walk of the tree. Its stack takes each element's slots once. -/
def walk : Validator :=
  Validator.loop c schema (1 + ((branching c).map (degree c)).sum)
    ⟨∅, [], [.check (.handle .map ROOT_ID) schema.root []], ∅⟩

/-- A tree path as the keys a location is given by: an index by its decimal digits. -/
def pathKeys (steps : List Step) : List Bytes :=
  steps.map fun
    | .key k => k
    | .index i => asBytes (toString i)

/-- The zone of a sequence the walk has reached. -/
def Validator.endpointZone (v : Validator) (seq : ElementId) : Option String :=
  v.seqPaths[seq]?.bind fun path => schema.zoneOf (pathKeys path)

variable [IdBytes]

/-- The live annotations, by the bytes of their ids. -/
def rangedElements : List (ElementId × RangedEntry) :=
  (c.ranged.toList.filter fun entry => !entry.2.tombstone).insertionSort
    fun a b => IdBytes.asBytes a.1 ≤ IdBytes.asBytes b.1

def Validator.checkCrossZoneAnchors (v : Validator) : List Violation :=
  if schema.zones.isEmpty then []
  else
    ((rangedElements c).filter fun entry =>
      v.endpointZone schema entry.2.start.seq ≠ v.endpointZone schema entry.2.stop.seq).map
        fun entry => ⟨[], .crossZoneAnchor entry.1⟩

def validate : List Violation :=
  (walk c schema).out ++ (walk c schema).checkCrossZoneAnchors c schema

end Walk

end Validate

end CrdtSync
