import CrdtSync.Core.Document

/-!
# Filters that cut groups

A filter that drops a member of an atomic group leaves the rest of it short, so the
survivors are delivered untagged; a group the filter carries whole keeps its tags.
-/

namespace CrdtSync

/-- Something that carries an op. -/
class CarriesOp (α : Type) where
  op : α → Op
  setOp : α → Op → α
  op_setOp : ∀ item o, op (setOp item o) = o

instance : CarriesOp Op := ⟨id, fun _ o => o, fun _ _ => rfl⟩

open CarriesOp (op setOp)

def splitGroups (dropped : List Op) : Finset TxKey := (dropped.filterMap Op.txKey).toFinset

variable {α : Type} [CarriesOp α]

def destrand (split : Finset TxKey) (item : α) : α :=
  if (op item).txKey.any (· ∈ split) then setOp item (op item).untagged else item

/-- Untag every op of a split group. -/
def destrandSplit (items : List α) (split : Finset TxKey) : List α :=
  if split = ∅ then items else items.map (destrand split)

/-- Keep what `keep` admits, the survivors of a group it splits untagged. -/
def retainAtomic (keep : α → Bool) (items : List α) : List α :=
  destrandSplit (items.filter keep) (splitGroups ((items.filter fun item => !keep item).map op))

end CrdtSync
