import Mathlib.Order.WithBot
import CrdtSync.Core.NestedMap

/-!
# When a map merge is a join

The laws hold of a slot except where a claim of a composite is outranked, in one of the two
orders, before the other claim of that composite comes in: then what the outranked claim held
is gone. Each law is stated of slots, carried to maps key by key, and to nested maps by the
depth.
-/

namespace CrdtSync

open Lib
open Std (ExtTreeMap)

/-! ### Retained creates -/

/-- What `higher` compares. -/
def createRank : Option ContainerCreate → WithBot (Stamp ×ₗ Nat)
  | none => ⊥
  | some c => ((toLex (c.stamp, c.kind.tag) : Stamp ×ₗ Nat) : WithBot (Stamp ×ₗ Nat))

theorem createRank_injective : Function.Injective createRank := by
  intro a b h
  cases a with
  | none =>
    cases b with
    | none => rfl
    | some d => exact absurd h.symm (WithBot.coe_ne_bot)
  | some c =>
    cases b with
    | none => exact absurd h (WithBot.coe_ne_bot)
    | some d =>
      have hPair := Prod.ext_iff.mp (toLex.injective (WithBot.coe_injective h))
      obtain ⟨stamp, kind⟩ := c
      obtain ⟨stamp', kind'⟩ := d
      obtain ⟨hStamp, hTag⟩ := hPair
      obtain rfl : stamp = stamp' := hStamp
      obtain rfl : kind = kind' := ElementKind.tag_injective hTag
      rfl

theorem higher_eq (a b : Option ContainerCreate) :
    higher a b = if createRank a < createRank b then b else a := by
  cases a with
  | none =>
    cases b with
    | none => rfl
    | some d => exact (if_pos (WithBot.bot_lt_coe _)).symm
  | some c =>
    cases b with
    | none => exact (if_neg not_lt_bot).symm
    | some d =>
      simp only [higher, createRank, WithBot.coe_lt_coe, Prod.Lex.toLex_lt_toLex]

theorem createRank_higher (a b : Option ContainerCreate) :
    createRank (higher a b) = max (createRank a) (createRank b) := by
  rw [higher_eq]
  split
  next h => exact (max_eq_right h.le).symm
  next h => exact (max_eq_left (not_lt.mp h)).symm

theorem higher_comm (a b : Option ContainerCreate) : higher a b = higher b a :=
  createRank_injective (by rw [createRank_higher, createRank_higher, max_comm])

theorem higher_assoc (a b c : Option ContainerCreate) :
    higher (higher a b) c = higher a (higher b c) :=
  createRank_injective (by simp only [createRank_higher, max_assoc])

theorem higher_self (a : Option ContainerCreate) : higher a a = a :=
  createRank_injective (by rw [createRank_higher, max_self])

theorem higher_eq_left {a b : Option ContainerCreate} :
    higher a b = a ↔ createRank b ≤ createRank a := by
  rw [← createRank_injective.eq_iff, createRank_higher, max_eq_left_iff]

theorem higher_eq_right {a b : Option ContainerCreate} :
    higher a b = b ↔ createRank a ≤ createRank b := by
  rw [higher_comm, higher_eq_left]

/-! ### Slots -/

def Claims {V : Type} [Composite V] (a b : V) : Prop :=
  Composite.handle a = Composite.handle b ∧ Composite.handle a ≠ none

namespace Slot

variable {V : Type} [Composite V]

theorem Kin.symm {d s : Slot V} (h : d.Kin s) : s.Kin d := ⟨h.1.symm, h.1 ▸ h.2⟩

theorem Kin.trans {a b c : Slot V} (h : a.Kin b) (h' : b.Kin c) : a.Kin c := ⟨h.1.trans h'.1, h.2⟩

/-- Two claims of one composite are live. -/
theorem Kin.values {d s : Slot V} (h : d.Kin s) :
    ∃ a b, d.value = some a ∧ s.value = some b ∧ Claims a b := by
  obtain ⟨hSame, hSome⟩ := h
  unfold handle at hSame hSome
  cases ha : d.value with
  | none => exact absurd (by rw [ha]; rfl) hSome
  | some a =>
    cases hb : s.value with
    | none => exact absurd (hSame.trans (by rw [hb]; rfl)) hSome
    | some b =>
      rw [ha, hb] at hSame
      rw [ha] at hSome
      exact ⟨a, b, rfl, rfl, hSame, hSome⟩

/-- What the two slots hold is so related. -/
def Both (p : V → V → Prop) (d s : Slot V) : Prop := ∀ a ∈ d.value, ∀ b ∈ s.value, p a b

theorem merge_of_kin {d s : Slot V} (h : d.Kin s) :
    d.merge s = ⟨max d.stamp s.stamp, Option.map₂ Composite.merge d.value s.value,
      higher d.container s.container⟩ := by
  rw [merge, if_pos h]
  congr 1
  split
  next hLt => exact (max_eq_right hLt.le).symm
  next hLt => exact (max_eq_left (not_lt.mp hLt)).symm

theorem merge_of_le {d s : Slot V} (h : ¬d.Kin s) (hStamp : s.stamp ≤ d.stamp) :
    d.merge s = ⟨d.stamp, d.value, higher d.container s.container⟩ := by
  rw [merge, if_neg h, if_pos (not_lt.mpr hStamp)]

theorem merge_of_lt {d s : Slot V} (h : ¬d.Kin s) (hStamp : d.stamp < s.stamp) :
    d.merge s = ⟨s.stamp, s.value, higher d.container s.container⟩ := by
  rw [merge, if_neg h, if_neg (not_not.mpr hStamp)]

theorem container_merge (d s : Slot V) :
    (d.merge s).container = higher d.container s.container := by
  by_cases h : d.Kin s
  · rw [merge_of_kin h]
  · rcases le_or_gt s.stamp d.stamp with hStamp | hStamp
    · rw [merge_of_le h hStamp]
    · rw [merge_of_lt h hStamp]

theorem stamp_merge (d s : Slot V) : (d.merge s).stamp = max d.stamp s.stamp := by
  by_cases h : d.Kin s
  · rw [merge_of_kin h]
  · rcases le_or_gt s.stamp d.stamp with hStamp | hStamp
    · rw [merge_of_le h hStamp, max_eq_left hStamp]
    · rw [merge_of_lt h hStamp, max_eq_right hStamp.le]

theorem value_merge_of_kin {d s : Slot V} (h : d.Kin s) :
    (d.merge s).value = Option.map₂ Composite.merge d.value s.value := by rw [merge_of_kin h]

theorem value_merge_of_le {d s : Slot V} (h : ¬d.Kin s) (hStamp : s.stamp ≤ d.stamp) :
    (d.merge s).value = d.value := by rw [merge_of_le h hStamp]

theorem value_merge_of_lt {d s : Slot V} (h : ¬d.Kin s) (hStamp : d.stamp < s.stamp) :
    (d.merge s).value = s.value := by rw [merge_of_lt h hStamp]

omit [Composite V] in
theorem ext_fields {d s : Slot V} (hStamp : d.stamp = s.stamp) (hValue : d.value = s.value)
    (hContainer : d.container = s.container) : d = s := by
  cases d
  cases s
  rw [mk.injEq]
  exact ⟨hStamp, hValue, hContainer⟩

/-- A merge of two claims of one composite is a claim of it. -/
theorem handle_merge_of_kin {d s : Slot V} (h : d.Kin s) : (d.merge s).handle = d.handle := by
  obtain ⟨a, b, ha, hb, -⟩ := h.values
  rw [handle, handle, value_merge_of_kin h, ha, hb]
  exact Composite.handle_merge a b

/-- Where two slots claim one composite, folding values is folding the two it holds. -/
theorem map₂_eq_iff {f g : V → V → V} {p : V → V → Prop}
    (hp : ∀ a b, Claims a b → (f a b = g a b ↔ p a b)) {d s : Slot V} (h : d.Kin s) :
    Option.map₂ f d.value s.value = Option.map₂ g d.value s.value ↔ Both p d s := by
  obtain ⟨a, b, ha, hb, hSame⟩ := h.values
  simp only [Both, ha, hb, Option.map₂_some_some, Option.mem_def, Option.some_inj, forall_eq',
    hp a b hSame]

theorem map₂_left {d s : Slot V} (h : d.Kin s) :
    d.value = Option.map₂ (fun a _ => a) d.value s.value := by
  obtain ⟨a, b, ha, hb, -⟩ := h.values
  rw [ha, hb, Option.map₂_some_some]

theorem map₂_right {d s : Slot V} (h : d.Kin s) :
    s.value = Option.map₂ (fun _ b => b) d.value s.value := by
  obtain ⟨a, b, ha, hb, -⟩ := h.values
  rw [ha, hb, Option.map₂_some_some]

theorem merge_self (hSelf : ∀ a : V, Composite.merge a a = a) (d : Slot V) : d.merge d = d := by
  refine ext_fields (by rw [stamp_merge, max_self]) ?_ (by rw [container_merge, higher_self])
  by_cases h : d.Kin d
  · obtain ⟨a, -, ha, -, -⟩ := h.values
    rw [value_merge_of_kin h, ha, Option.map₂_some_some, hSelf]
  · exact value_merge_of_le h le_rfl

/-- When two slots fold alike either way: claims of one composite as their contents do, and others
unless they are rivals at one stamp. -/
structure Commutes (p : V → V → Prop) (d s : Slot V) : Prop where
  nested : d.Kin s → Both p d s
  rivals : ¬d.Kin s → d.stamp = s.stamp → d.value = s.value

theorem merge_comm_iff {p : V → V → Prop}
    (hp : ∀ a b : V, Claims a b → (Composite.merge a b = Composite.merge b a ↔ p a b))
    (d s : Slot V) : d.merge s = s.merge d ↔ d.Commutes p s := by
  have hSplit : d.merge s = s.merge d ↔ (d.merge s).value = (s.merge d).value :=
    ⟨congrArg value, fun hValue => ext_fields (by rw [stamp_merge, stamp_merge, max_comm]) hValue
      (by rw [container_merge, container_merge, higher_comm])⟩
  rw [hSplit]
  by_cases h : d.Kin s
  · rw [value_merge_of_kin h, value_merge_of_kin h.symm, Option.map₂_swap _ s.value,
      map₂_eq_iff hp h]
    exact ⟨fun hBoth => ⟨fun _ => hBoth, fun hNot => absurd h hNot⟩, fun hComm => hComm.nested h⟩
  · have h' : ¬s.Kin d := fun hKin => h hKin.symm
    rcases lt_trichotomy d.stamp s.stamp with hLt | hEq | hGt
    · rw [value_merge_of_lt h hLt, value_merge_of_le h' hLt.le]
      exact ⟨fun _ => ⟨fun hKin => absurd hKin h, fun _ hSame => absurd hSame hLt.ne⟩, fun _ => rfl⟩
    · rw [value_merge_of_le h hEq.ge, value_merge_of_le h' hEq.le]
      exact ⟨fun hValue => ⟨fun hKin => absurd hKin h, fun _ _ => hValue⟩,
        fun hComm => hComm.rivals h hEq⟩
    · rw [value_merge_of_le h hGt.le, value_merge_of_lt h' hGt]
      exact ⟨fun _ => ⟨fun hKin => absurd hKin h, fun _ hSame => absurd hSame hGt.ne'⟩, fun _ => rfl⟩

/-- When a slot is news to no other: it retains no create that ranks higher, claims no higher
stamp, and adds nothing to a composite both claim. -/
structure Absorbs (p : V → V → Prop) (d s : Slot V) : Prop where
  container : createRank s.container ≤ createRank d.container
  stamp : s.stamp ≤ d.stamp
  nested : d.Kin s → Both p d s

theorem merge_eq_left_iff {p : V → V → Prop}
    (hp : ∀ a b : V, Claims a b → (Composite.merge a b = a ↔ p a b))
    (d s : Slot V) : d.merge s = d ↔ d.Absorbs p s := by
  have hSplit : d.merge s = d ↔ createRank s.container ≤ createRank d.container ∧
      s.stamp ≤ d.stamp ∧ (d.merge s).value = d.value := by
    rw [← higher_eq_left, ← container_merge, ← max_eq_left_iff, ← stamp_merge]
    exact ⟨fun h => ⟨congrArg container h, congrArg stamp h, congrArg value h⟩,
      fun ⟨hContainer, hStamp, hValue⟩ => ext_fields hStamp hValue hContainer⟩
  have hValue (hStamp : s.stamp ≤ d.stamp) :
      (d.merge s).value = d.value ↔ (d.Kin s → Both p d s) := by
    by_cases h : d.Kin s
    · have hNested := map₂_eq_iff hp h
      rw [← map₂_left h] at hNested
      rw [value_merge_of_kin h, hNested]
      exact ⟨fun hBoth _ => hBoth, fun hBoth => hBoth h⟩
    · exact ⟨fun _ hKin => absurd hKin h, fun _ => value_merge_of_le h hStamp⟩
  rw [hSplit]
  exact ⟨fun ⟨hContainer, hStamp, h⟩ => ⟨hContainer, hStamp, (hValue hStamp).mp h⟩,
    fun h => ⟨h.container, h.stamp, (hValue h.stamp).mpr h.nested⟩⟩

/-- When a slot is taken over by the one folded in. -/
structure Yields (p : V → V → Prop) (d s : Slot V) : Prop where
  container : createRank d.container ≤ createRank s.container
  stamp : d.stamp ≤ s.stamp
  nested : d.Kin s → Both p d s
  rivals : ¬d.Kin s → d.stamp = s.stamp → d.value = s.value

theorem merge_eq_right_iff {p : V → V → Prop}
    (hp : ∀ a b : V, Claims a b → (Composite.merge a b = b ↔ p a b))
    (d s : Slot V) : d.merge s = s ↔ d.Yields p s := by
  have hSplit : d.merge s = s ↔ createRank d.container ≤ createRank s.container ∧
      d.stamp ≤ s.stamp ∧ (d.merge s).value = s.value := by
    rw [← higher_eq_right, ← container_merge, ← max_eq_right_iff, ← stamp_merge]
    exact ⟨fun h => ⟨congrArg container h, congrArg stamp h, congrArg value h⟩,
      fun ⟨hContainer, hStamp, hValue⟩ => ext_fields hStamp hValue hContainer⟩
  have hValue (hStamp : d.stamp ≤ s.stamp) : (d.merge s).value = s.value ↔
      (d.Kin s → Both p d s) ∧ (¬d.Kin s → d.stamp = s.stamp → d.value = s.value) := by
    by_cases h : d.Kin s
    · have hNested := map₂_eq_iff hp h
      rw [← map₂_right h] at hNested
      rw [value_merge_of_kin h, hNested]
      exact ⟨fun hBoth => ⟨fun _ => hBoth, fun hNot => absurd h hNot⟩, fun hBoth => hBoth.1 h⟩
    · rcases hStamp.lt_or_eq with hLt | hEq
      · exact ⟨fun _ => ⟨fun hKin => absurd hKin h, fun _ hSame => absurd hSame hLt.ne⟩,
          fun _ => value_merge_of_lt h hLt⟩
      · rw [value_merge_of_le h hEq.ge]
        exact ⟨fun hSame => ⟨fun hKin => absurd hKin h, fun _ _ => hSame⟩, fun hSame => hSame.2 h hEq⟩
  rw [hSplit]
  exact ⟨fun ⟨hContainer, hStamp, h⟩ => ⟨hContainer, hStamp, ((hValue hStamp).mp h).1,
    ((hValue hStamp).mp h).2⟩,
    fun h => ⟨h.container, h.stamp, (hValue h.stamp).mpr ⟨h.nested, h.rivals⟩⟩⟩

/-- When three slots fold alike in both groupings. Between two claims of one composite the third
slot wins over one and not over the other, so that claim is gone in one grouping only: `outer`,
`inner` and `between` name where it stands. -/
structure Associates (p : V → V → V → Prop) (absorbs yields : V → V → Prop) (a b c : Slot V) :
    Prop where
  nested : a.Kin b → b.Kin c →
    ∀ x ∈ a.value, ∀ y ∈ b.value, ∀ z ∈ c.value, p x y z
  outer : a.Kin b → ¬b.Kin c → b.stamp < c.stamp → c.stamp ≤ a.stamp → Both absorbs a b
  inner : ¬a.Kin b → b.Kin c → b.stamp ≤ a.stamp → a.stamp < c.stamp → Both yields b c
  between : a.Kin c → ¬a.Kin b →
    (a.stamp < b.stamp → b.stamp < c.stamp → Both yields a c) ∧
      (b.stamp ≤ a.stamp → c.stamp ≤ b.stamp → Both absorbs a c)

section Associates

variable {p : V → V → V → Prop} {absorbs yields : V → V → Prop}
  (hp : ∀ a b c : V, Claims a b → Claims b c →
    (Composite.merge (Composite.merge a b) c = Composite.merge a (Composite.merge b c) ↔ p a b c))
  (hAbsorbs : ∀ a b : V, Claims a b → (Composite.merge a b = a ↔ absorbs a b))
  (hYields : ∀ a b : V, Claims a b → (Composite.merge a b = b ↔ yields a b))
  {a b c : Slot V}

/-- The groupings differ at most in the value. -/
theorem merge_assoc_iff_value :
    (a.merge b).merge c = a.merge (b.merge c) ↔
      ((a.merge b).merge c).value = (a.merge (b.merge c)).value :=
  ⟨congrArg value, fun h => ext_fields (by simp only [stamp_merge, max_assoc]) h
    (by simp only [container_merge, higher_assoc])⟩

theorem kin_congr_left {a' : Slot V} (h : a.value = a'.value) : a.Kin c ↔ a'.Kin c := by
  rw [Kin, Kin, handle, handle, handle, h]

theorem kin_congr_right {c' : Slot V} (h : c.value = c'.value) : a.Kin c ↔ a.Kin c' := by
  rw [Kin, Kin, handle, handle, handle, h]

theorem kin_merge_left (h : a.Kin b) : (a.merge b).Kin c ↔ a.Kin c := by
  rw [Kin, Kin, handle_merge_of_kin h]

theorem kin_merge_right (h : b.Kin c) : a.Kin (b.merge c) ↔ a.Kin b := by
  rw [Kin, Kin, handle_merge_of_kin h]

include hp in
theorem assoc_nested (hab : a.Kin b) (hbc : b.Kin c) :
    ((a.merge b).merge c).value = (a.merge (b.merge c)).value ↔
      ∀ x ∈ a.value, ∀ y ∈ b.value, ∀ z ∈ c.value, p x y z := by
  rw [value_merge_of_kin ((kin_merge_left hab).mpr (hab.trans hbc)), value_merge_of_kin hab,
    value_merge_of_kin ((kin_merge_right hbc).mpr hab), value_merge_of_kin hbc]
  obtain ⟨x, y, hx, hy, hxy⟩ := hab.values
  obtain ⟨y', z, hy', hz, hyz⟩ := hbc.values
  obtain rfl := Option.some_inj.mp (hy.symm.trans hy')
  simp only [hx, hy, hz, Option.map₂_some_some, Option.mem_def, Option.some_inj, forall_eq',
    hp x y z hxy hyz]

include hAbsorbs in
/-- The third slot comes in over the second but not over the first. -/
theorem assoc_outer (hab : a.Kin b) (hbc : ¬b.Kin c) :
    ((a.merge b).merge c).value = (a.merge (b.merge c)).value ↔
      (b.stamp < c.stamp → c.stamp ≤ a.stamp → Both absorbs a b) := by
  have hac : ¬a.Kin c := fun h => hbc (hab.symm.trans h)
  have hLeft : ¬(a.merge b).Kin c := (kin_merge_left hab).not.mpr hac
  rcases le_or_gt c.stamp b.stamp with hcb | hbc'
  · have hRight := value_merge_of_le hbc hcb
    rw [value_merge_of_le hLeft (by rw [stamp_merge]; exact le_max_of_le_right hcb),
      value_merge_of_kin ((kin_congr_right hRight).mpr hab), value_merge_of_kin hab, hRight]
    exact ⟨fun _ hLt => absurd hLt hcb.not_gt, fun _ => rfl⟩
  · have hRight := value_merge_of_lt hbc hbc'
    have hApart : ¬a.Kin (b.merge c) := (kin_congr_right hRight).not.mpr hac
    have hStamp : (b.merge c).stamp = c.stamp := by rw [stamp_merge, max_eq_right hbc'.le]
    rcases le_or_gt c.stamp a.stamp with hca | hac'
    · have hNested := map₂_eq_iff hAbsorbs hab
      rw [← map₂_left hab] at hNested
      rw [value_merge_of_le hLeft (by rw [stamp_merge]; exact le_max_of_le_left hca),
        value_merge_of_kin hab, value_merge_of_le hApart (by rw [hStamp]; exact hca), hNested]
      exact ⟨fun hBoth _ _ => hBoth, fun hBoth => hBoth hbc' hca⟩
    · rw [value_merge_of_lt hLeft (by rw [stamp_merge]; exact max_lt hac' hbc'),
        value_merge_of_lt hApart (by rw [hStamp]; exact hac'), hRight]
      exact ⟨fun _ _ hLe => absurd hac' hLe.not_gt, fun _ => rfl⟩

include hYields in
/-- The first slot is over the second but not over the third. -/
theorem assoc_inner (hab : ¬a.Kin b) (hbc : b.Kin c) :
    ((a.merge b).merge c).value = (a.merge (b.merge c)).value ↔
      (b.stamp ≤ a.stamp → a.stamp < c.stamp → Both yields b c) := by
  have hac : ¬a.Kin c := fun h => hab (h.trans hbc.symm)
  have hRight : ¬a.Kin (b.merge c) := (kin_merge_right hbc).not.mpr hab
  rcases le_or_gt b.stamp a.stamp with hba | hab'
  · have hLeft := value_merge_of_le hab hba
    have hApart : ¬(a.merge b).Kin c := (kin_congr_left hLeft).not.mpr hac
    have hStamp : (a.merge b).stamp = a.stamp := by rw [stamp_merge, max_eq_left hba]
    rcases le_or_gt c.stamp a.stamp with hca | hac'
    · rw [value_merge_of_le hApart (by rw [hStamp]; exact hca),
        value_merge_of_le hRight (by rw [stamp_merge]; exact max_le hba hca), hLeft]
      exact ⟨fun _ _ hLt => absurd hLt hca.not_gt, fun _ => rfl⟩
    · have hNested := map₂_eq_iff hYields hbc
      rw [← map₂_right hbc] at hNested
      rw [value_merge_of_lt hApart (by rw [hStamp]; exact hac'),
        value_merge_of_lt hRight (by rw [stamp_merge]; exact lt_max_of_lt_right hac'),
        value_merge_of_kin hbc, @eq_comm _ c.value, hNested]
      exact ⟨fun hBoth _ _ => hBoth, fun hBoth => hBoth hba hac'⟩
  · have hLeft := value_merge_of_lt hab hab'
    rw [value_merge_of_kin ((kin_congr_left hLeft).mpr hbc), hLeft,
      value_merge_of_lt hRight (by rw [stamp_merge]; exact lt_max_of_lt_left hab'),
      value_merge_of_kin hbc]
    exact ⟨fun _ hLe => absurd hab' hLe.not_gt, fun _ => rfl⟩

include hAbsorbs hYields in
/-- The second slot stands between two claims of one composite. -/
theorem assoc_between (hac : a.Kin c) (hab : ¬a.Kin b) :
    ((a.merge b).merge c).value = (a.merge (b.merge c)).value ↔
      (a.stamp < b.stamp → b.stamp < c.stamp → Both yields a c) ∧
        (b.stamp ≤ a.stamp → c.stamp ≤ b.stamp → Both absorbs a c) := by
  have hbc : ¬b.Kin c := fun h => hab (hac.trans h.symm)
  rcases le_or_gt b.stamp a.stamp with hba | hab'
  · have hLeft := value_merge_of_le hab hba
    rw [value_merge_of_kin ((kin_congr_left hLeft).mpr hac), hLeft]
    rcases le_or_gt c.stamp b.stamp with hcb | hbc'
    · have hRight := value_merge_of_le hbc hcb
      have hNested := map₂_eq_iff hAbsorbs hac
      rw [← map₂_left hac] at hNested
      rw [value_merge_of_le ((kin_congr_right hRight).not.mpr hab)
        (by rw [stamp_merge, max_eq_left hcb]; exact hba), hNested]
      exact ⟨fun hBoth => ⟨fun hLt => absurd hLt hba.not_gt, fun _ _ => hBoth⟩,
        fun hBoth => hBoth.2 hba hcb⟩
    · have hRight := value_merge_of_lt hbc hbc'
      rw [value_merge_of_kin ((kin_congr_right hRight).mpr hac), hRight]
      exact ⟨fun _ => ⟨fun hLt => absurd hLt hba.not_gt, fun _ hLe => absurd hbc' hLe.not_gt⟩,
        fun _ => rfl⟩
  · have hLeft := value_merge_of_lt hab hab'
    have hApart : ¬(a.merge b).Kin c := (kin_congr_left hLeft).not.mpr hbc
    have hStamp : (a.merge b).stamp = b.stamp := by rw [stamp_merge, max_eq_right hab'.le]
    rcases le_or_gt c.stamp b.stamp with hcb | hbc'
    · have hRight := value_merge_of_le hbc hcb
      rw [value_merge_of_le hApart (by rw [hStamp]; exact hcb), hLeft,
        value_merge_of_lt ((kin_congr_right hRight).not.mpr hab)
          (by rw [stamp_merge, max_eq_left hcb]; exact hab'), hRight]
      exact ⟨fun _ => ⟨fun _ hLt => absurd hLt hcb.not_gt, fun hLe => absurd hab' hLe.not_gt⟩,
        fun _ => rfl⟩
    · have hRight := value_merge_of_lt hbc hbc'
      have hNested := map₂_eq_iff hYields hac
      rw [← map₂_right hac] at hNested
      rw [value_merge_of_lt hApart (by rw [hStamp]; exact hbc'),
        value_merge_of_kin ((kin_congr_right hRight).mpr hac), hRight, @eq_comm _ c.value, hNested]
      exact ⟨fun hBoth => ⟨fun _ _ => hBoth, fun hLe => absurd hab' hLe.not_gt⟩,
        fun hBoth => hBoth.1 hab' hbc'⟩

/-- Slots that claim nothing in common resolve by stamp alone. -/
theorem assoc_apart (hab : ¬a.Kin b) (hbc : ¬b.Kin c) (hac : ¬a.Kin c) :
    ((a.merge b).merge c).value = (a.merge (b.merge c)).value := by
  rcases le_or_gt b.stamp a.stamp with hba | hab' <;> rcases le_or_gt c.stamp b.stamp with hcb | hbc'
  · have hLeft := value_merge_of_le hab hba
    have hRight := value_merge_of_le hbc hcb
    rw [value_merge_of_le ((kin_congr_left hLeft).not.mpr hac)
        (by rw [stamp_merge, max_eq_left hba]; exact hcb.trans hba), hLeft,
      value_merge_of_le ((kin_congr_right hRight).not.mpr hab)
        (by rw [stamp_merge, max_eq_left hcb]; exact hba)]
  · have hLeft := value_merge_of_le hab hba
    have hRight := value_merge_of_lt hbc hbc'
    have hApart : ¬(a.merge b).Kin c := (kin_congr_left hLeft).not.mpr hac
    have hApart' : ¬a.Kin (b.merge c) := (kin_congr_right hRight).not.mpr hac
    have hStamp : (a.merge b).stamp = a.stamp := by rw [stamp_merge, max_eq_left hba]
    have hStamp' : (b.merge c).stamp = c.stamp := by rw [stamp_merge, max_eq_right hbc'.le]
    rcases le_or_gt c.stamp a.stamp with hca | hac'
    · rw [value_merge_of_le hApart (by rw [hStamp]; exact hca), hLeft,
        value_merge_of_le hApart' (by rw [hStamp']; exact hca)]
    · rw [value_merge_of_lt hApart (by rw [hStamp]; exact hac'),
        value_merge_of_lt hApart' (by rw [hStamp']; exact hac'), hRight]
  · have hLeft := value_merge_of_lt hab hab'
    have hRight := value_merge_of_le hbc hcb
    rw [value_merge_of_le ((kin_congr_left hLeft).not.mpr hbc)
        (by rw [stamp_merge, max_eq_right hab'.le]; exact hcb), hLeft,
      value_merge_of_lt ((kin_congr_right hRight).not.mpr hab)
        (by rw [stamp_merge, max_eq_left hcb]; exact hab'), hRight]
  · have hLeft := value_merge_of_lt hab hab'
    have hRight := value_merge_of_lt hbc hbc'
    rw [value_merge_of_lt ((kin_congr_left hLeft).not.mpr hbc)
        (by rw [stamp_merge, max_eq_right hab'.le]; exact hbc'),
      value_merge_of_lt ((kin_congr_right hRight).not.mpr hac)
        (by rw [stamp_merge, max_eq_right hbc'.le]; exact hab'.trans hbc'), hRight]

include hp hAbsorbs hYields in
theorem merge_assoc_iff :
    (a.merge b).merge c = a.merge (b.merge c) ↔ a.Associates p absorbs yields b c := by
  rw [merge_assoc_iff_value]
  by_cases hab : a.Kin b
  · by_cases hbc : b.Kin c
    · rw [assoc_nested hp hab hbc]
      exact ⟨fun h => ⟨fun _ _ => h, fun _ hNot => absurd hbc hNot, fun hNot => absurd hab hNot,
        fun _ hNot => absurd hab hNot⟩, fun h => h.nested hab hbc⟩
    · rw [assoc_outer hAbsorbs hab hbc]
      exact ⟨fun h => ⟨fun _ hKin => absurd hKin hbc, fun _ _ => h, fun hNot => absurd hab hNot,
        fun _ hNot => absurd hab hNot⟩, fun h => h.outer hab hbc⟩
  · by_cases hbc : b.Kin c
    · rw [assoc_inner hYields hab hbc]
      have hac : ¬a.Kin c := fun h => hab (h.trans hbc.symm)
      exact ⟨fun h => ⟨fun hKin => absurd hKin hab, fun hKin => absurd hKin hab, fun _ _ => h,
        fun hKin => absurd hKin hac⟩, fun h => h.inner hab hbc⟩
    · by_cases hac : a.Kin c
      · rw [assoc_between hAbsorbs hYields hac hab]
        exact ⟨fun h => ⟨fun hKin => absurd hKin hab, fun hKin => absurd hKin hab,
          fun _ hKin => absurd hKin hbc, fun _ _ => h⟩, fun h => h.between hac hab⟩
      · exact ⟨fun _ => ⟨fun hKin => absurd hKin hab, fun hKin => absurd hKin hab,
          fun _ hKin => absurd hKin hbc, fun hKin => absurd hKin hac⟩,
          fun _ => assoc_apart hab hbc hac⟩

end Associates

end Slot

/-! ### Maps -/

namespace NestedMap

variable {V : Type}

/-- When two maps fold alike either way: they are copies of one map, and so do the slots of every
key both hold. -/
structure Commutes [Composite V] (p : V → V → Prop) (m m' : NestedMap V) : Prop where
  id : m.id = m'.id
  slots : ∀ key : Bytes, ∀ d ∈ m.slots[key]?, ∀ s ∈ m'.slots[key]?, d.Commutes p s

/-- When every slot of the second map is news to none of the first. -/
def Absorbs [Composite V] (p : V → V → Prop) (m m' : NestedMap V) : Prop :=
  ∀ key : Bytes, ∀ s ∈ m'.slots[key]?, ∃ d ∈ m.slots[key]?, d.Absorbs p s

/-- When every slot of the first map is taken over by the second. -/
structure Yields [Composite V] (p : V → V → Prop) (m m' : NestedMap V) : Prop where
  id : m.id = m'.id
  slots : ∀ key : Bytes, ∀ d ∈ m.slots[key]?, ∃ s ∈ m'.slots[key]?, d.Yields p s

def Associates [Composite V] (p : V → V → V → Prop) (absorbs yields : V → V → Prop)
    (m m' m'' : NestedMap V) : Prop :=
  ∀ key : Bytes, ∀ a ∈ m.slots[key]?, ∀ b ∈ m'.slots[key]?, ∀ c ∈ m''.slots[key]?,
    a.Associates p absorbs yields b c

variable [Composite V]

theorem merge_self (hSelf : ∀ a : V, Composite.merge a a = a) (m : NestedMap V) : m.merge m = m :=
  eq_iff.mpr ⟨rfl, (slots_merge m m).eq_left_iff.mpr fun _ d hd => ⟨d, hd, d.merge_self hSelf⟩⟩

theorem merge_comm_iff {p : V → V → Prop}
    (hp : ∀ a b : V, Claims a b → (Composite.merge a b = Composite.merge b a ↔ p a b))
    (m m' : NestedMap V) : m.merge m' = m'.merge m ↔ m.Commutes p m' := by
  rw [eq_iff, (slots_merge m m').comm_iff (slots_merge m' m)]
  simp only [Slot.merge_comm_iff hp]
  exact ⟨fun h => ⟨h.1, h.2⟩, fun h => ⟨h.id, h.slots⟩⟩

theorem merge_eq_left_iff {p : V → V → Prop}
    (hp : ∀ a b : V, Claims a b → (Composite.merge a b = a ↔ p a b))
    (m m' : NestedMap V) : m.merge m' = m ↔ m.Absorbs p m' := by
  rw [eq_iff, (slots_merge m m').eq_left_iff]
  simp only [Slot.merge_eq_left_iff hp]
  exact ⟨fun h => h.2, fun h => ⟨rfl, h⟩⟩

theorem merge_eq_right_iff {p : V → V → Prop}
    (hp : ∀ a b : V, Claims a b → (Composite.merge a b = b ↔ p a b))
    (m m' : NestedMap V) : m.merge m' = m' ↔ m.Yields p m' := by
  rw [eq_iff, (slots_merge m m').eq_right_iff]
  simp only [Slot.merge_eq_right_iff hp]
  exact ⟨fun h => ⟨h.1, h.2⟩, fun h => ⟨h.id, h.slots⟩⟩

theorem merge_assoc_iff {p : V → V → V → Prop} {absorbs yields : V → V → Prop}
    (hp : ∀ a b c : V, Claims a b → Claims b c →
      (Composite.merge (Composite.merge a b) c = Composite.merge a (Composite.merge b c) ↔ p a b c))
    (hAbsorbs : ∀ a b : V, Claims a b → (Composite.merge a b = a ↔ absorbs a b))
    (hYields : ∀ a b : V, Claims a b → (Composite.merge a b = b ↔ yields a b))
    (m m' m'' : NestedMap V) :
    (m.merge m').merge m'' = m.merge (m'.merge m'') ↔ m.Associates p absorbs yields m' m'' := by
  rw [eq_iff, (slots_merge m m').assoc_iff (slots_merge _ m'') (slots_merge m' m'')
    (slots_merge m _)]
  simp only [Slot.merge_assoc_iff hp hAbsorbs hYields]
  exact ⟨fun h => h.2, fun h => ⟨rfl, h⟩⟩

end NestedMap

/-! ### Counters -/

/-- The greater count in each direction. -/
def Tally.join (a b : Tally) : Tally := ⟨max a.inc b.inc, max a.dec b.dec⟩

theorem mergeTallies_merges (entries other : ExtTreeMap ClientId Tally compare) :
    Merges Tally.join entries other (mergeTallies entries other) := by
  intro client
  refine (getElem?_foldl_alter_toList other (fun (new : Tally) (held : Option Tally) =>
    some ⟨max (held.getD ⟨0, 0⟩).inc new.inc, max (held.getD ⟨0, 0⟩).dec new.dec⟩)
    entries client).trans ?_
  cases entries[client]? with
  | none =>
    cases other[client]? with
    | none => rfl
    | some new =>
      simp only [Option.getD_none, Nat.zero_max, Option.merge]
  | some held => cases other[client]? <;> rfl

theorem Tally.join_comm (a b : Tally) : a.join b = b.join a := by
  simp only [join, max_comm]

theorem Tally.join_assoc (a b c : Tally) : (a.join b).join c = a.join (b.join c) := by
  simp only [join, max_assoc]

theorem Tally.join_eq_left_iff (a b : Tally) : a.join b = a ↔ b.inc ≤ a.inc ∧ b.dec ≤ a.dec := by
  cases a
  simp only [join, mk.injEq, max_eq_left_iff]

theorem mergeTallies_comm (entries other : ExtTreeMap ClientId Tally compare) :
    mergeTallies entries other = mergeTallies other entries :=
  ((mergeTallies_merges entries other).comm_iff (mergeTallies_merges other entries)).mpr
    fun _ a _ b _ => a.join_comm b

theorem mergeTallies_assoc (x y z : ExtTreeMap ClientId Tally compare) :
    mergeTallies (mergeTallies x y) z = mergeTallies x (mergeTallies y z) :=
  ((mergeTallies_merges x y).assoc_iff (mergeTallies_merges _ z) (mergeTallies_merges y z)
    (mergeTallies_merges x _)).mpr fun _ a _ b _ c _ => a.join_assoc b c

def Counted (entries other : ExtTreeMap ClientId Tally compare) : Prop :=
  ∀ client : ClientId, ∀ new ∈ other[client]?,
    ∃ held ∈ entries[client]?, new.inc ≤ held.inc ∧ new.dec ≤ held.dec

theorem mergeTallies_eq_left_iff (entries other : ExtTreeMap ClientId Tally compare) :
    mergeTallies entries other = entries ↔ Counted entries other := by
  rw [(mergeTallies_merges entries other).eq_left_iff]
  simp only [Tally.join_eq_left_iff]
  rfl

theorem mergeTallies_eq_right_iff (entries other : ExtTreeMap ClientId Tally compare) :
    mergeTallies entries other = other ↔ Counted other entries := by
  rw [mergeTallies_comm, mergeTallies_eq_left_iff]

/-! ### Registers -/

namespace Register

theorem merge_comm_iff {r r' : Register} (hId : r.id = r'.id) :
    r.merge r' = r'.merge r ↔ (r.stamp = r'.stamp → r.value = r'.value) := by
  obtain ⟨id, value, stamp⟩ := r
  obtain ⟨id', value', stamp'⟩ := r'
  obtain rfl : id = id' := hId
  rcases lt_trichotomy stamp stamp' with hLt | rfl | hGt
  · simp [merge, hLt, hLt.not_gt, hLt.ne]
  · simp [merge]
  · simp [merge, hGt, hGt.not_gt, hGt.ne']

theorem merge_assoc (r r' r'' : Register) : (r.merge r').merge r'' = r.merge (r'.merge r'') := by
  unfold merge
  split_ifs
  any_goals rfl
  next hFirst hSecond hBoth => exact absurd (lt_trans hFirst hSecond) hBoth
  next hFirst hBoth hSecond => exact absurd ((not_lt.mp hFirst).trans_lt hBoth) hSecond

theorem merge_eq_left_iff (r r' : Register) : r.merge r' = r ↔ r'.stamp ≤ r.stamp := by
  unfold merge
  split
  next h => exact ⟨fun hEq => (congrArg stamp hEq).le, fun hLe => absurd h hLe.not_gt⟩
  next h => exact ⟨fun _ => not_lt.mp h, fun _ => rfl⟩

theorem merge_eq_right_iff {r r' : Register} (hId : r.id = r'.id) :
    r.merge r' = r' ↔ r.stamp ≤ r'.stamp ∧ (r.stamp = r'.stamp → r.value = r'.value) := by
  obtain ⟨id, value, stamp⟩ := r
  obtain ⟨id', value', stamp'⟩ := r'
  obtain rfl : id = id' := hId
  rcases lt_trichotomy stamp stamp' with hLt | rfl | hGt
  · simp [merge, hLt, hLt.le, hLt.ne]
  · simp [merge]
  · simp [merge, hGt.not_gt, hGt.not_ge, hGt.ne']

end Register

/-! ### Elements -/

theorem SequenceKind.kind_injective : Function.Injective SequenceKind.kind := by
  intro a b h
  cases a <;> cases b <;> first | rfl | cases h

theorem SequenceKind.of_kind_eq {k : SequenceKind} {kind : ElementKind} (h : k.kind = kind) :
    kind = .list ∨ kind = .text ∨ kind = .xmlFragment := by
  subst h
  cases k <;> decide

namespace NestedElement

variable {S V : Type}

/-- The claims of one composite, by kind. -/
inductive Paired : NestedElement S V → NestedElement S V → Prop
  | register {r r' : Register} (hId : r.id = r'.id) : Paired (register r) (register r')
  | counter {id : ElementId} {entries other : ExtTreeMap ClientId Tally compare} :
    Paired (counter id entries) (counter id other)
  | map {m m' : NestedMap V} (hId : m.id = m'.id) : Paired (map m) (map m')
  | sequence {kind : SequenceKind} {id : ElementId} {items other : S} :
    Paired (sequence kind id items) (sequence kind id other)
  | xmlElement {id : ElementId} {tag tag' : Bytes} {attrs attrs' : NestedMap V}
    {children children' : S} :
    Paired (xmlElement id tag attrs children) (xmlElement id tag' attrs' children')

theorem sequence_of_handle {kind : SequenceKind} {id : ElementId} {e : NestedElement S V}
    (h : e.handle = some (kind.kind, id)) : ∃ items, e = sequence kind id items := by
  cases e with
  | scalar => cases h
  | sequence =>
    obtain ⟨hKind, rfl⟩ := Prod.mk.inj (Option.some_inj.mp h)
    obtain rfl := SequenceKind.kind_injective hKind
    exact ⟨_, rfl⟩
  | _ =>
    obtain hKind | hKind | hKind :=
      SequenceKind.of_kind_eq (Prod.mk.inj (Option.some_inj.mp h)).1.symm
    all_goals cases hKind

theorem paired_of_handle {a b : NestedElement S V} (h : a.handle = b.handle)
    (hSome : a.handle ≠ none) : Paired a b := by
  cases a with
  | scalar => exact absurd rfl hSome
  | sequence =>
    obtain ⟨items, rfl⟩ := sequence_of_handle h.symm
    exact .sequence
  | register =>
    cases b with
    | register => exact .register (Prod.mk.inj (Option.some_inj.mp h)).2
    | sequence => obtain ⟨_, hNot⟩ := sequence_of_handle h; cases hNot
    | _ => cases h
  | counter =>
    cases b with
    | counter =>
      obtain rfl := (Prod.mk.inj (Option.some_inj.mp h)).2
      exact .counter
    | sequence => obtain ⟨_, hNot⟩ := sequence_of_handle h; cases hNot
    | _ => cases h
  | map =>
    cases b with
    | map => exact .map (Prod.mk.inj (Option.some_inj.mp h)).2
    | sequence => obtain ⟨_, hNot⟩ := sequence_of_handle h; cases hNot
    | _ => cases h
  | xmlElement =>
    cases b with
    | xmlElement =>
      obtain rfl := (Prod.mk.inj (Option.some_inj.mp h)).2
      exact .xmlElement
    | sequence => obtain ⟨_, hNot⟩ := sequence_of_handle h; cases hNot
    | _ => cases h

variable [SequenceState S] [Composite V]

theorem paired_of_claims {a b : NestedElement S V} (h : Claims a b) : Paired a b :=
  paired_of_handle h.1 h.2

theorem merge_self (hSelf : ∀ a : V, Composite.merge a a = a) (e : NestedElement S V) :
    Composite.merge e e = e := by
  cases e with
  | scalar => rfl
  | register r => exact congrArg register ((r.merge_eq_left_iff r).mpr le_rfl)
  | counter id entries =>
    exact congrArg (counter id) ((mergeTallies_eq_left_iff entries entries).mpr
      fun _ tally h => ⟨tally, h, le_rfl, le_rfl⟩)
  | map m => exact congrArg map (m.merge_self hSelf)
  | sequence kind id items => exact congrArg (sequence kind id) (SequenceState.merge_self items)
  | xmlElement id tag attrs children =>
    rw [merge_xmlElement, attrs.merge_self hSelf, SequenceState.merge_self]

/-- When two copies of a composite fold alike either way. -/
def Commutes (p : V → V → Prop) : NestedElement S V → NestedElement S V → Prop
  | register r, register r' => r.stamp = r'.stamp → r.value = r'.value
  | map m, map m' => m.Commutes p m'
  | sequence _ _ items, sequence _ _ other =>
    SequenceState.merge items other = SequenceState.merge other items
  | xmlElement _ tag attrs children, xmlElement _ tag' attrs' children' =>
    tag = tag' ∧ attrs.Commutes p attrs' ∧
      SequenceState.merge children children' = SequenceState.merge children' children
  | _, _ => True

theorem merge_comm_iff {p : V → V → Prop}
    (hp : ∀ a b : V, Claims a b → (Composite.merge a b = Composite.merge b a ↔ p a b))
    (a b : NestedElement S V) (h : Claims a b) :
    Composite.merge a b = Composite.merge b a ↔ a.Commutes p b := by
  cases paired_of_claims h with
  | register hId =>
    simp only [merge_register, register.injEq, Register.merge_comm_iff hId, Commutes]
  | counter => simp only [merge_counter, mergeTallies_comm, Commutes]
  | map => simp only [merge_map, map.injEq, NestedMap.merge_comm_iff hp, Commutes]
  | sequence => simp only [merge_sequence, sequence.injEq, true_and, Commutes]
  | xmlElement =>
    simp only [merge_xmlElement, xmlElement.injEq, true_and, NestedMap.merge_comm_iff hp, Commutes]

/-- When the second copy of a composite is no news to the first. -/
def Absorbs (p : V → V → Prop) : NestedElement S V → NestedElement S V → Prop
  | register r, register r' => r'.stamp ≤ r.stamp
  | counter _ entries, counter _ other => Counted entries other
  | map m, map m' => m.Absorbs p m'
  | sequence _ _ items, sequence _ _ other => SequenceState.merge items other = items
  | xmlElement _ _ attrs children, xmlElement _ _ attrs' children' =>
    attrs.Absorbs p attrs' ∧ SequenceState.merge children children' = children
  | _, _ => True

theorem merge_eq_left_iff {p : V → V → Prop}
    (hp : ∀ a b : V, Claims a b → (Composite.merge a b = a ↔ p a b))
    (a b : NestedElement S V) (h : Claims a b) : Composite.merge a b = a ↔ a.Absorbs p b := by
  cases paired_of_claims h with
  | register => simp only [merge_register, register.injEq, Register.merge_eq_left_iff, Absorbs]
  | counter =>
    simp only [merge_counter, counter.injEq, true_and, mergeTallies_eq_left_iff, Absorbs]
  | map => simp only [merge_map, map.injEq, NestedMap.merge_eq_left_iff hp, Absorbs]
  | sequence => simp only [merge_sequence, sequence.injEq, true_and, Absorbs]
  | xmlElement =>
    simp only [merge_xmlElement, xmlElement.injEq, true_and, NestedMap.merge_eq_left_iff hp, Absorbs]

/-- When the first copy of a composite is no news to the second. -/
def Yields (p : V → V → Prop) : NestedElement S V → NestedElement S V → Prop
  | register r, register r' => r.stamp ≤ r'.stamp ∧ (r.stamp = r'.stamp → r.value = r'.value)
  | counter _ entries, counter _ other => Counted other entries
  | map m, map m' => m.Yields p m'
  | sequence _ _ items, sequence _ _ other => SequenceState.merge items other = other
  | xmlElement _ tag attrs children, xmlElement _ tag' attrs' children' =>
    tag = tag' ∧ attrs.Yields p attrs' ∧ SequenceState.merge children children' = children'
  | _, _ => True

theorem merge_eq_right_iff {p : V → V → Prop}
    (hp : ∀ a b : V, Claims a b → (Composite.merge a b = b ↔ p a b))
    (a b : NestedElement S V) (h : Claims a b) : Composite.merge a b = b ↔ a.Yields p b := by
  cases paired_of_claims h with
  | register hId =>
    simp only [merge_register, register.injEq, Register.merge_eq_right_iff hId, Yields]
  | counter =>
    simp only [merge_counter, counter.injEq, true_and, mergeTallies_eq_right_iff, Yields]
  | map => simp only [merge_map, map.injEq, NestedMap.merge_eq_right_iff hp, Yields]
  | sequence => simp only [merge_sequence, sequence.injEq, true_and, Yields]
  | xmlElement =>
    simp only [merge_xmlElement, xmlElement.injEq, true_and, NestedMap.merge_eq_right_iff hp, Yields]

/-- When three copies of a composite fold alike in both groupings. -/
def Associates (p : V → V → V → Prop) (absorbs yields : V → V → Prop) :
    NestedElement S V → NestedElement S V → NestedElement S V → Prop
  | map a, map b, map c => a.Associates p absorbs yields b c
  | sequence _ _ a, sequence _ _ b, sequence _ _ c =>
    SequenceState.merge (SequenceState.merge a b) c = SequenceState.merge a (SequenceState.merge b c)
  | xmlElement _ _ attrs a, xmlElement _ _ attrs' b, xmlElement _ _ attrs'' c =>
    attrs.Associates p absorbs yields attrs' attrs'' ∧
      SequenceState.merge (SequenceState.merge a b) c =
        SequenceState.merge a (SequenceState.merge b c)
  | _, _, _ => True

theorem merge_assoc_iff {p : V → V → V → Prop} {absorbs yields : V → V → Prop}
    (hp : ∀ a b c : V, Claims a b → Claims b c →
      (Composite.merge (Composite.merge a b) c = Composite.merge a (Composite.merge b c) ↔ p a b c))
    (hAbsorbs : ∀ a b : V, Claims a b → (Composite.merge a b = a ↔ absorbs a b))
    (hYields : ∀ a b : V, Claims a b → (Composite.merge a b = b ↔ yields a b))
    (a b c : NestedElement S V) (h : Claims a b) (h' : Claims b c) :
    Composite.merge (Composite.merge a b) c = Composite.merge a (Composite.merge b c) ↔
      a.Associates p absorbs yields b c := by
  have hPaired := paired_of_claims h'
  cases paired_of_claims h with
  | register =>
    cases hPaired with
    | register => simp only [merge_register, Register.merge_assoc, Associates]
  | counter =>
    cases hPaired with
    | counter => simp only [merge_counter, mergeTallies_assoc, Associates]
  | map =>
    cases hPaired with
    | map =>
      simp only [merge_map, map.injEq, NestedMap.merge_assoc_iff hp hAbsorbs hYields, Associates]
  | sequence =>
    cases hPaired with
    | sequence => simp only [merge_sequence, sequence.injEq, true_and, Associates]
  | xmlElement =>
    cases hPaired with
    | xmlElement =>
      simp only [merge_xmlElement, xmlElement.injEq, true_and,
        NestedMap.merge_assoc_iff hp hAbsorbs hYields, Associates]

end NestedElement

/-! ### Every depth -/

namespace ElementAt

variable {S : Type} [SequenceState S]

def Commutes : (n : Nat) → ElementAt S n → ElementAt S n → Prop
  | 0 => fun _ _ => True
  | n + 1 => NestedElement.Commutes (S := S) (Commutes n)

def Absorbs : (n : Nat) → ElementAt S n → ElementAt S n → Prop
  | 0 => fun _ _ => True
  | n + 1 => NestedElement.Absorbs (S := S) (Absorbs n)

def Yields : (n : Nat) → ElementAt S n → ElementAt S n → Prop
  | 0 => fun _ _ => True
  | n + 1 => NestedElement.Yields (S := S) (Yields n)

def Associates : (n : Nat) → ElementAt S n → ElementAt S n → ElementAt S n → Prop
  | 0 => fun _ _ _ => True
  | n + 1 => NestedElement.Associates (S := S) (Associates n) (Absorbs n) (Yields n)

theorem merge_self : (n : Nat) → (a : ElementAt S n) → Composite.merge a a = a
  | 0 => fun (a : Empty) => a.elim
  | n + 1 => NestedElement.merge_self (S := S) (merge_self n)

theorem merge_comm_iff : (n : Nat) → (a b : ElementAt S n) → Claims a b →
    (Composite.merge a b = Composite.merge b a ↔ Commutes n a b)
  | 0 => fun (a : Empty) => a.elim
  | n + 1 => NestedElement.merge_comm_iff (S := S) (merge_comm_iff n)

theorem merge_eq_left_iff : (n : Nat) → (a b : ElementAt S n) → Claims a b →
    (Composite.merge a b = a ↔ Absorbs n a b)
  | 0 => fun (a : Empty) => a.elim
  | n + 1 => NestedElement.merge_eq_left_iff (S := S) (merge_eq_left_iff n)

theorem merge_eq_right_iff : (n : Nat) → (a b : ElementAt S n) → Claims a b →
    (Composite.merge a b = b ↔ Yields n a b)
  | 0 => fun (a : Empty) => a.elim
  | n + 1 => NestedElement.merge_eq_right_iff (S := S) (merge_eq_right_iff n)

theorem merge_assoc_iff : (n : Nat) → (a b c : ElementAt S n) → Claims a b → Claims b c →
    (Composite.merge (Composite.merge a b) c = Composite.merge a (Composite.merge b c) ↔
      Associates n a b c)
  | 0 => fun (a : Empty) => a.elim
  | n + 1 => NestedElement.merge_assoc_iff (S := S) (merge_assoc_iff n) (merge_eq_left_iff n)
    (merge_eq_right_iff n)

end ElementAt

end CrdtSync
