import Mathlib.Data.Option.Basic
import CrdtSync.Lib.OrderedMap

/-!
# Maps merged key by key

A map that holds, at each key, what one map holds there folded together with what another
holds. Each law of the merge is that law of the fold at the keys the maps share.
-/

namespace CrdtSync.Lib

open Std (ExtTreeMap)

section Options

variable {α : Type*} (f : α → α → α) (x y z : Option α)

theorem merge_comm_iff : x.merge f y = y.merge f x ↔ ∀ d ∈ x, ∀ s ∈ y, f d s = f s d := by
  cases x <;> cases y <;> simp [Option.merge]

theorem merge_eq_left_iff : x.merge f y = x ↔ ∀ s ∈ y, ∃ d ∈ x, f d s = d := by
  cases x <;> cases y <;> simp [Option.merge]

theorem merge_eq_right_iff : x.merge f y = y ↔ ∀ d ∈ x, ∃ s ∈ y, f d s = s := by
  cases x <;> cases y <;> simp [Option.merge]

theorem merge_assoc_iff : (x.merge f y).merge f z = x.merge f (y.merge f z) ↔
    ∀ a ∈ x, ∀ b ∈ y, ∀ c ∈ z, f (f a b) c = f a (f b c) := by
  cases x <;> cases y <;> cases z <;> simp [Option.merge]

end Options

variable {K V : Type*} [Ord K] [Std.TransOrd K] [Std.LawfulEqOrd K]

/-- The third map is the first with the second folded in. -/
def Merges (f : V → V → V) (m src merged : ExtTreeMap K V compare) : Prop :=
  ∀ k : K, merged[k]? = m[k]?.merge f src[k]?

namespace Merges

variable {f : V → V → V} {m src merged : ExtTreeMap K V compare}

theorem ext_iff_keys {r r' : ExtTreeMap K V compare} : r = r' ↔ ∀ k : K, r[k]? = r'[k]? :=
  ⟨fun h k => by rw [h], ExtTreeMap.ext_getElem?⟩

theorem comm_iff {merged' : ExtTreeMap K V compare} (h : Merges f m src merged)
    (h' : Merges f src m merged') :
    merged = merged' ↔ ∀ k : K, ∀ d ∈ m[k]?, ∀ s ∈ src[k]?, f d s = f s d := by
  rw [ext_iff_keys]
  exact forall_congr' fun k => by rw [h k, h' k, merge_comm_iff]

theorem eq_left_iff (h : Merges f m src merged) :
    merged = m ↔ ∀ k : K, ∀ s ∈ src[k]?, ∃ d ∈ m[k]?, f d s = d := by
  rw [ext_iff_keys]
  exact forall_congr' fun k => by rw [h k, merge_eq_left_iff]

theorem eq_right_iff (h : Merges f m src merged) :
    merged = src ↔ ∀ k : K, ∀ d ∈ m[k]?, ∃ s ∈ src[k]?, f d s = s := by
  rw [ext_iff_keys]
  exact forall_congr' fun k => by rw [h k, merge_eq_right_iff]

theorem assoc_iff {b t ab bc left right : ExtTreeMap K V compare} (hab : Merges f m b ab)
    (hLeft : Merges f ab t left) (hbc : Merges f b t bc) (hRight : Merges f m bc right) :
    left = right ↔
      ∀ k : K, ∀ x ∈ m[k]?, ∀ y ∈ b[k]?, ∀ z ∈ t[k]?, f (f x y) z = f x (f y z) := by
  rw [ext_iff_keys]
  exact forall_congr' fun k => by rw [hLeft k, hab k, hRight k, hbc k, merge_assoc_iff]

end Merges

end CrdtSync.Lib
