import Mathlib.Data.Prod.Lex
import Mathlib.Order.WithBot
import CrdtSync.Core.Ids

/-!
# Stamps

Op and position identities. A stamp has two orders: its own, which breaks ties
between siblings of a sequence, and the storage order of `SeqKey`, under which
the ids of one run are consecutive.
-/

namespace CrdtSync

def u64Max : Nat := 2 ^ 64 - 1

/-- The highest lamport a folded op may raise a partition clock to. -/
def LAMPORT_WIRE_CEILING : Nat := u64Max / 4

/-- The highest lamport a reservation may end at. -/
def LAMPORT_STATE_CEILING : Nat := u64Max / 2

/-- `u64::checked_add`. -/
def checkedAdd (a b : Nat) : Option Nat := if a + b ≤ u64Max then some (a + b) else none

/-- `u64::checked_sub`. -/
def checkedSub (a b : Nat) : Option Nat := if b ≤ a then some (a - b) else none

def saturatingAdd (a b : Nat) : Nat := min (a + b) u64Max

theorem checkedAdd_eq_some {a b c : Nat} :
    checkedAdd a b = some c ↔ a + b = c ∧ c ≤ u64Max := by
  unfold checkedAdd
  split
  · simp only [Option.some.injEq]
    omega
  · simp only [reduceCtorEq, false_iff]
    omega

theorem checkedSub_eq_some {a b c : Nat} : checkedSub a b = some c ↔ b + c = a := by
  unfold checkedSub
  split
  · simp only [Option.some.injEq]
    omega
  · simp only [reduceCtorEq, false_iff]
    omega

structure Stamp where
  lamport : Nat
  client : ClientId
  offset : Nat

namespace Stamp

/-- The comparison order: lamport, then client, then offset. -/
def rank (s : Stamp) : Nat ×ₗ ClientId ×ₗ Nat := toLex (s.lamport, toLex (s.client, s.offset))

theorem rank_injective : Function.Injective rank := by
  intro a b h
  cases a
  cases b
  simpa [rank] using h

instance : LinearOrder Stamp := LinearOrder.lift' rank rank_injective

instance transCmp : Std.TransCmp (compare : Stamp → Stamp → Ordering) := inferInstance

instance lawfulBEq : LawfulBEq Stamp := inferInstance

def runMember (s : Stamp) (k : Nat) : Stamp :=
  match checkedAdd s.lamport k with
  | some lamport => { s with lamport }
  | none => ⟨u64Max, s.client, saturatingAdd s.offset (k - (u64Max - s.lamport))⟩

end Stamp

/-- The storage order: client, then offset, then lamport. -/
structure SeqKey where
  client : ClientId
  offset : Nat
  lamport : Nat

namespace SeqKey

def rank (k : SeqKey) : ClientId ×ₗ Nat ×ₗ Nat := toLex (k.client, toLex (k.offset, k.lamport))

theorem rank_injective : Function.Injective rank := by
  intro a b h
  cases a
  cases b
  simpa [rank] using h

instance : LinearOrder SeqKey := LinearOrder.lift' rank rank_injective

instance transCmp : Std.TransCmp (compare : SeqKey → SeqKey → Ordering) := inferInstance

theorem lt_iff {a b : SeqKey} : a < b ↔ a.client < b.client ∨ a.client = b.client ∧
    (a.offset < b.offset ∨ a.offset = b.offset ∧ a.lamport < b.lamport) := by
  change rank a < rank b ↔ _
  simp [rank, Prod.Lex.toLex_lt_toLex]

theorem le_iff {a b : SeqKey} : a ≤ b ↔ a.client < b.client ∨ a.client = b.client ∧
    (a.offset < b.offset ∨ a.offset = b.offset ∧ a.lamport ≤ b.lamport) := by
  change rank a ≤ rank b ↔ _
  simp [rank, Prod.Lex.toLex_le_toLex]

end SeqKey

def seqKey (id : Stamp) : SeqKey := ⟨id.client, id.offset, id.lamport⟩

def seqStamp (key : SeqKey) : Stamp := ⟨key.lamport, key.client, key.offset⟩

@[simp] theorem seqStamp_seqKey (id : Stamp) : seqStamp (seqKey id) = id := rfl

@[simp] theorem seqKey_seqStamp (key : SeqKey) : seqKey (seqStamp key) = key := rfl

theorem seqKey_inj {a b : Stamp} : seqKey a = seqKey b ↔ a = b :=
  ⟨fun h => congrArg seqStamp h, congrArg seqKey⟩

inductive Side
  | left
  | right

namespace Side

def tag : Side → Nat
  | left => 0
  | right => 1

theorem tag_injective : Function.Injective tag := by
  intro a b h
  cases a <;> cases b <;> first | rfl | cases h

instance : LinearOrder Side := LinearOrder.lift' tag tag_injective

end Side

/-- Where a node attaches in the tree: a parent, or the root, and a side of it. -/
structure Anchor where
  parent : Option Stamp
  side : Side

namespace Anchor

def rank (a : Anchor) : WithBot Stamp ×ₗ Side := toLex (a.parent, a.side)

theorem rank_injective : Function.Injective rank := by
  intro a b h
  cases a
  cases b
  obtain ⟨rfl, rfl⟩ := Prod.mk.inj (toLex.injective h)
  rfl

instance : LinearOrder Anchor := LinearOrder.lift' rank rank_injective

end Anchor

end CrdtSync
