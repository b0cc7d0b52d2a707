import Mathlib.Data.Option.NAry
import CrdtSync.Core.Element
import CrdtSync.Lib.PointwiseMerge

/-!
# Maps that hold what they nest

A map merged on its own, outside a document, holds its composites and not references to
them: a merge goes down into every composite the two sides share. Slots resolve by stamp,
except that two claims of one composite are folded together whichever stamp is higher.
-/

namespace CrdtSync

open Lib
open Std (ExtTreeMap)

/-- Fold another register in: its value is taken only when its stamp strictly beats this
one's. -/
def Register.merge (r other : Register) : Register :=
  if r.stamp < other.stamp then { r with value := other.value, stamp := other.stamp } else r

/-- `Counter::merge`: the greater tally of each client in each direction. -/
def mergeTallies (entries other : ExtTreeMap ClientId Tally compare) :
    ExtTreeMap ClientId Tally compare :=
  other.toList.foldl (fun entries e => entries.alter e.1 fun held =>
    let tally := held.getD ⟨0, 0⟩
    some ⟨max tally.inc e.2.inc, max tally.dec e.2.dec⟩) entries

/-- What lists, texts and fragments hold, and how it is folded together. -/
class SequenceState (S : Type) where
  merge : S → S → S
  merge_self : ∀ s, merge s s = s

inductive SequenceKind
  | list
  | text
  | xmlFragment
deriving DecidableEq

def SequenceKind.kind : SequenceKind → ElementKind
  | list => .list
  | text => .text
  | xmlFragment => .xmlFragment

/-- Values some of which are composites that merge. -/
class Composite (V : Type) where
  /-- The kind and id of a composite. A scalar has none. -/
  handle : V → Option (ElementKind × ElementId)
  merge : V → V → V
  handle_merge : ∀ a b, handle (merge a b) = handle a

/-- A map slot. A slot with no value is a tombstone. -/
structure Slot (V : Type) where
  stamp : Stamp
  value : Option V
  container : Option ContainerCreate

structure NestedMap (V : Type) where
  id : ElementId
  slots : ExtTreeMap Bytes (Slot V) compare

namespace Slot

variable {V : Type} [Composite V]

/-- The composite that is live in the slot. -/
def handle (d : Slot V) : Option (ElementKind × ElementId) := d.value.bind Composite.handle

/-- Both are claims of one composite, of one kind and one id. -/
def Kin (d s : Slot V) : Prop := d.handle = s.handle ∧ d.handle ≠ none

instance (d s : Slot V) : Decidable (d.Kin s) := inferInstanceAs (Decidable (_ ∧ _))

/-- Fold the source's slot in: two claims of one composite recurse, and of two others the source
wins when its stamp is strictly greater. -/
def merge (d s : Slot V) : Slot V :=
  let container := higher d.container s.container
  if d.Kin s then
    { stamp := if d.stamp < s.stamp then s.stamp else d.stamp
      value := Option.map₂ Composite.merge d.value s.value
      container }
  else if ¬d.stamp < s.stamp then { d with container }
  else { s with container }

end Slot

def createOfHandle {V : Type} [Composite V] (value : V) (stamp : Stamp) : Option ContainerCreate :=
  match Composite.handle value with
  | some (kind, _) => if kind.isContainer then some ⟨stamp, kind⟩ else none
  | none => none

namespace NestedMap

variable {V : Type} [Composite V]

def new (id : ElementId) : NestedMap V := ⟨id, ∅⟩

/-- Write a slot: a write that does not beat it only ranks its create. Setting the handle that is
installed comes to the same. -/
def set (m : NestedMap V) (key : Bytes) (value : V) (stamp : Stamp) : NestedMap V :=
  { m with slots := m.slots.alter key fun
      | none => some ⟨stamp, some value, createOfHandle value stamp⟩
      | some prior =>
        let container := higher prior.container (createOfHandle value stamp)
        if ¬prior.stamp < stamp then some { prior with container }
        else some ⟨stamp, some value, container⟩ }

def delete (m : NestedMap V) (key : Bytes) (stamp : Stamp) : NestedMap V :=
  { m with slots := m.slots.alter key fun
      | none => some ⟨stamp, none, none⟩
      | some prior =>
        if ¬prior.stamp < stamp then some prior else some ⟨stamp, none, prior.container⟩ }

/-- What a key holds once the source's slot is folded in. -/
def foldSlot (s : Slot V) : Option (Slot V) → Option (Slot V)
  | none => some s
  | some d => some (d.merge s)

def merge (m src : NestedMap V) : NestedMap V :=
  { m with slots := src.slots.toList.foldl (fun slots e => slots.alter e.1 (foldSlot e.2)) m.slots }

theorem slots_merge (m src : NestedMap V) :
    Merges Slot.merge m.slots src.slots (m.merge src).slots := by
  intro key
  refine (getElem?_foldl_alter_toList src.slots foldSlot m.slots key).trans ?_
  cases m.slots[key]? <;> cases src.slots[key]? <;> rfl

omit [Composite V] in
theorem eq_iff {m m' : NestedMap V} : m = m' ↔ m.id = m'.id ∧ m.slots = m'.slots := by
  cases m
  cases m'
  exact mk.injEq .. ▸ Iff.rfl

end NestedMap

/-- An element over the values its maps hold. -/
inductive NestedElement (S V : Type)
  | scalar (value : Scalar)
  | register (r : Register)
  | counter (id : ElementId) (entries : ExtTreeMap ClientId Tally compare)
  | map (m : NestedMap V)
  | sequence (kind : SequenceKind) (id : ElementId) (items : S)
  | xmlElement (id : ElementId) (tag : Bytes) (attrs : NestedMap V) (children : S)

namespace NestedElement

variable {S V : Type}

def handle : NestedElement S V → Option (ElementKind × ElementId)
  | scalar _ => none
  | register r => some (.register, r.id)
  | counter id _ => some (.counter, id)
  | map m => some (.map, m.id)
  | sequence kind id _ => some (kind.kind, id)
  | xmlElement id _ _ _ => some (.xmlElement, id)

variable [SequenceState S] [Composite V]

/-- Fold a composite of the same kind in. Nothing merges across kinds. -/
def merge : NestedElement S V → NestedElement S V → NestedElement S V
  | register r, register other => register (r.merge other)
  | counter id entries, counter _ other => counter id (mergeTallies entries other)
  | map m, map src => map (m.merge src)
  | sequence kind id items, sequence _ _ other => sequence kind id (SequenceState.merge items other)
  | xmlElement id tag attrs children, xmlElement _ _ otherAttrs otherChildren =>
    xmlElement id tag (attrs.merge otherAttrs) (SequenceState.merge children otherChildren)
  | held, _ => held

theorem handle_merge (a b : NestedElement S V) : (a.merge b).handle = a.handle := by
  cases a with
  | register r =>
    cases b with
    | register other =>
      simp only [merge, handle, Register.merge]
      split <;> rfl
    | _ => rfl
  | _ => cases b <;> rfl

instance : Composite (NestedElement S V) where
  handle := handle
  merge := merge
  handle_merge := handle_merge

@[simp] theorem merge_register (r other : Register) :
    Composite.merge (register r : NestedElement S V) (register other) = register (r.merge other) :=
  rfl

@[simp] theorem merge_counter (id id' : ElementId) (entries other : ExtTreeMap ClientId Tally compare) :
    Composite.merge (counter id entries : NestedElement S V) (counter id' other) =
      counter id (mergeTallies entries other) := rfl

@[simp] theorem merge_map (m src : NestedMap V) :
    Composite.merge (map m : NestedElement S V) (map src) = map (m.merge src) := rfl

@[simp] theorem merge_sequence (kind kind' : SequenceKind) (id id' : ElementId) (items other : S) :
    Composite.merge (sequence kind id items : NestedElement S V) (sequence kind' id' other) =
      sequence kind id (SequenceState.merge items other) := rfl

@[simp] theorem merge_xmlElement (id id' : ElementId) (tag tag' : Bytes) (attrs attrs' : NestedMap V)
    (children children' : S) :
    Composite.merge (xmlElement id tag attrs children) (xmlElement id' tag' attrs' children') =
      xmlElement id tag (attrs.merge attrs') (SequenceState.merge children children') := rfl

end NestedElement

/-- An element whose maps nest less than `n` deep. -/
def ElementAt (S : Type) : Nat → Type
  | 0 => Empty
  | n + 1 => NestedElement S (ElementAt S n)

instance elementAtComposite {S : Type} [SequenceState S] : (n : Nat) → Composite (ElementAt S n)
  | 0 =>
    { handle := fun e => nomatch (e : Empty)
      merge := fun e _ => e
      handle_merge := fun e _ => nomatch (e : Empty) }
  | n + 1 =>
    have := elementAtComposite (S := S) n
    inferInstanceAs (Composite (NestedElement S (ElementAt S n)))

/-! ### Folds -/

/-- What a map is folded from. -/
inductive MapWrite (V : Type)
  | set (key : Bytes) (value : V) (stamp : Stamp)
  | delete (key : Bytes) (stamp : Stamp)
deriving DecidableEq

namespace MapWrite

variable {V : Type}

def key : MapWrite V → Bytes
  | set key _ _ => key
  | delete key _ => key

def stamp : MapWrite V → Stamp
  | set _ _ stamp => stamp
  | delete _ stamp => stamp

def apply [Composite V] (m : NestedMap V) : MapWrite V → NestedMap V
  | set key value stamp => m.set key value stamp
  | delete key stamp => m.delete key stamp

end MapWrite

def NestedMap.folded {V : Type} [Composite V] (id : ElementId) (writes : List (MapWrite V)) :
    NestedMap V :=
  writes.foldl MapWrite.apply (.new id)

end CrdtSync
