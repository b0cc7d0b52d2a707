import CrdtSync.Server.Branches
import CrdtSync.Server.StoreFiles

/-!
# The records a room's files hold

The hub's branches and metadata against the records their files are written from: the
code's fixed-width integers beside the model's, and the claims as a sorted list. What
the hub hands to the store is what the files give back.
-/

namespace CrdtSync.Server

open Lib StoreFiles
open Std (ExtTreeMap)

namespace StoreFiles

/-- A branch as its file holds it. -/
def BranchRecord.ofBranch (b : Branch) : BranchRecord where
  name := b.name
  forkPoint := .ofNat b.forkPoint
  head := .ofNat b.head
  published := b.published

def BranchRecord.toBranch (b : BranchRecord) : Branch where
  name := b.name
  forkPoint := b.forkPoint.toNat
  head := b.head.toNat
  published := b.published

/-- A room's metadata as its file holds it, the claims in the order of the clients. -/
def MetaRecord.ofMeta (m : RoomMeta) : MetaRecord where
  governing := m.governing.map fun g => (g.1, .ofNat g.2)
  maxOpVersion := m.maxOpVersion.map .ofNat
  creator := m.creator
  clientActors := m.clientActors.toList

def MetaRecord.toMeta (m : MetaRecord) : RoomMeta where
  governing := m.governing.map fun g => (g.1, g.2.toNat)
  maxOpVersion := m.maxOpVersion.map UInt32.toNat
  creator := m.creator
  clientActors := m.clientActors.foldl (fun actors claim => actors.insert claim.1 claim.2) ∅

end StoreFiles

/-- Its positions are ones the file has room for. -/
def Branch.Fits (b : Branch) : Prop := b.forkPoint < 2 ^ 64 ∧ b.head < 2 ^ 64

structure RoomMeta.Fits (m : RoomMeta) : Prop where
  governing : ∀ g ∈ m.governing, g.2 < 2 ^ 32
  maxOpVersion : ∀ v ∈ m.maxOpVersion, v < 2 ^ 32
  claims : m.clientActors.toList.length < 2 ^ 32

theorem Branch.Fits.toBranch_ofBranch {b : Branch} (h : b.Fits) :
    (BranchRecord.ofBranch b).toBranch = b := by
  obtain ⟨name, forkPoint, head, published⟩ := b
  simp only [BranchRecord.ofBranch, BranchRecord.toBranch, Branch.mk.injEq, true_and, and_true]
  exact ⟨UInt64.toNat_ofNat_of_lt' h.1, UInt64.toNat_ofNat_of_lt' h.2⟩

theorem RoomMeta.Fits.toMeta_ofMeta {m : RoomMeta} (h : m.Fits) :
    (MetaRecord.ofMeta m).toMeta = m := by
  obtain ⟨governing, maxOpVersion, creator, clientActors⟩ := m
  simp only [MetaRecord.ofMeta, MetaRecord.toMeta, RoomMeta.mk.injEq, true_and]
  refine ⟨?_, ?_, foldl_insert_toList clientActors⟩
  · cases governing with
    | none => rfl
    | some g =>
      have hFits : g.2 < 2 ^ 32 := h.governing g rfl
      exact congrArg some (Prod.ext rfl (UInt32.toNat_ofNat_of_lt' hFits))
  · cases maxOpVersion with
    | none => rfl
    | some v =>
      have hFits : v < 2 ^ 32 := h.maxOpVersion v rfl
      exact congrArg some (UInt32.toNat_ofNat_of_lt' hFits)

end CrdtSync.Server
