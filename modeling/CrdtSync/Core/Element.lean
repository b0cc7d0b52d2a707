import Mathlib.Algebra.Ring.Int.Defs
import CrdtSync.Core.FugueList
import CrdtSync.Core.Op

/-!
# Elements

The values a map slot or a sequence node holds, and the composites they refer to
by id: registers inline, counters, and last-writer-wins maps. A handle is the id
and kind of the registered composite, so two handles are one exactly when both
agree.
-/

namespace CrdtSync

open Lib
open Std (ExtTreeMap)

structure Register where
  id : ElementId
  value : Scalar
  stamp : Stamp
deriving DecidableEq

/-- A write takes effect only when its stamp strictly beats the current one. -/
def Register.set (r : Register) (value : Scalar) (stamp : Stamp) : Register :=
  if r.stamp < stamp then { r with value, stamp } else r

inductive Element
  | scalar (value : Scalar)
  | register (r : Register)
  | handle (kind : ElementKind) (id : ElementId)
deriving DecidableEq

namespace Element

def kind : Element → ElementKind
  | scalar _ => .scalar
  | register _ => .register
  | handle kind _ => kind

def isContainer (e : Element) : Bool := e.kind.isContainer

/-- Two elements holding the exact same registered composite. -/
def sameHandle : Element → Element → Bool
  | handle kind id, handle kind' id' => kind == kind' && id == id'
  | _, _ => false

end Element

section Encoding

variable [IdBytes]

def putBytes (b : Bytes) : Bytes := leBytes 4 b.length ++ b

def Fin.asBytes (b : Fin (2 ^ 128)) : Bytes := (leBytes 16 b).reverse

/-- `put_scalar`. -/
def Scalar.encode : Scalar → Bytes
  | .null => [0]
  | .bool b => [1, if b then 1 else 0]
  | .int n => 2 :: leBytes 8 (n % 2 ^ 64).toNat
  | .bytes b => 3 :: putBytes b
  | .blobRef r => 4 :: (Fin.asBytes r.id ++ putBytes r.mime ++ leBytes 8 r.size ++
      match r.inlined with
      | none => [0]
      | some b => 1 :: putBytes b)
  | .elementRef id => 5 :: IdBytes.asBytes id

/-- `put_node_value`. A register is never a sequence node. -/
def Element.encode : Element → Bytes
  | .scalar value => UInt8.ofNat ElementKind.scalar.tag :: value.encode
  | .register _ => []
  | .handle kind id => UInt8.ofNat kind.tag :: IdBytes.asBytes id

instance : SeqValue Element where
  kind := Element.kind
  encoded := Element.encode
  merge value _ := value

end Encoding

structure Tally where
  inc : Nat
  dec : Nat
deriving DecidableEq

def u32Max : Nat := 2 ^ 32 - 1

/-- A counter: what each client has added and taken away. -/
structure Counter where
  entries : ExtTreeMap ClientId Tally compare
  displaced : Bool
deriving DecidableEq

namespace Counter

def new : Counter := ⟨∅, false⟩

def read (n : Counter) : Int := (n.entries.toList.map fun e => (e.2.inc : Int) - e.2.dec).sum

def inc (c : Counter) (client : ClientId) (amount : Nat) : Counter :=
  { c with entries := c.entries.alter client fun
      | some tally => some { tally with inc := min (tally.inc + amount) u32Max }
      | none => some ⟨amount, 0⟩ }

def dec (c : Counter) (client : ClientId) (amount : Nat) : Counter :=
  { c with entries := c.entries.alter client fun
      | some tally => some { tally with dec := min (tally.dec + amount) u32Max }
      | none => some ⟨0, amount⟩ }

end Counter

/-- The container create a key retains across deletes and overwrites. -/
structure ContainerCreate where
  stamp : Stamp
  kind : ElementKind
deriving DecidableEq

/-- The create a key retains once it has seen both: the higher-stamped one, the
kind breaking a tie. -/
def higher : Option ContainerCreate → Option ContainerCreate → Option ContainerCreate
  | some a, some b =>
    if a.stamp < b.stamp ∨ a.stamp = b.stamp ∧ a.kind.tag < b.kind.tag then some b else some a
  | a, none => a
  | none, b => b

def createOf (value : Element) (stamp : Stamp) : Option ContainerCreate :=
  if value.isContainer then some ⟨stamp, value.kind⟩ else none

/-- A map slot. A slot with no value is a tombstone. -/
structure Entry where
  stamp : Stamp
  value : Option Element
  container : Option ContainerCreate
deriving DecidableEq

structure LwwMap where
  id : ElementId
  slots : ExtTreeMap Bytes Entry compare
  displaced : Bool
deriving DecidableEq

namespace LwwMap

def new (id : ElementId) : LwwMap := ⟨id, ∅, false⟩

def get (m : LwwMap) (key : Bytes) : Option Element := m.slots[key]?.bind Entry.value

/-- Write a slot, handing back the value it evicts. A write that does not beat the
slot, or that sets the handle already there, only ranks its create. -/
def set (m : LwwMap) (key : Bytes) (value : Element) (stamp : Stamp) :
    LwwMap × Option Element :=
  match m.slots[key]? with
  | none => ({ m with slots := m.slots.insert key ⟨stamp, some value, createOf value stamp⟩ }, none)
  | some prior =>
    let container := higher prior.container (createOf value stamp)
    if ¬prior.stamp < stamp then
      ({ m with slots := m.slots.insert key { prior with container } }, none)
    else if prior.value.any fun old => old.sameHandle value then
      ({ m with slots := m.slots.insert key { prior with stamp, container } }, none)
    else ({ m with slots := m.slots.insert key ⟨stamp, some value, container⟩ }, prior.value)

def delete (m : LwwMap) (key : Bytes) (stamp : Stamp) : LwwMap × Option Element :=
  match m.slots[key]? with
  | none => ({ m with slots := m.slots.insert key ⟨stamp, none, none⟩ }, none)
  | some prior =>
    if ¬prior.stamp < stamp then (m, none)
    else ({ m with slots := m.slots.insert key ⟨stamp, none, prior.container⟩ }, prior.value)

/-- `RegisterSet`: write the register live at the key, or install a fresh one. -/
def setRegister (m : LwwMap) (key : Bytes) (value : Scalar) (stamp : Stamp) :
    LwwMap × Option Element :=
  match m.slots[key]? with
  | some ⟨last, some (.register r), container⟩ =>
    let entry : Entry := ⟨max last stamp, some (.register (r.set value stamp)), container⟩
    ({ m with slots := m.slots.insert key entry }, none)
  | _ => m.set key (.register ⟨.derive m.id key .register, value, stamp⟩) stamp

end LwwMap

end CrdtSync
