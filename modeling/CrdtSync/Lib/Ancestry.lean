import Mathlib.Data.Finset.Card
import Mathlib.Data.Fintype.Pigeonhole
import Mathlib.Logic.Function.Basic
import Mathlib.Logic.Relation

/-!
# Ancestry along a parent function

Every element has at most one parent. The function is acyclic when no element is
its own ancestor; over finitely many children an ascent then ends, and no ascent
is longer than there are children.
-/

namespace CrdtSync.Lib

open Relation (TransGen)

variable {α : Type*} {up up' : α → Option α}

/-- `b` lies above `a`: some steps up lead from `a` to `b`. -/
def Above (up : α → Option α) (a b : α) : Prop := TransGen (fun x y => up x = some y) a b

def Acyclic (up : α → Option α) : Prop := ∀ a, ¬Above up a a

namespace Above

theorem single {a b : α} (h : up a = some b) : Above up a b := TransGen.single h

theorem trans {a b c : α} (h : Above up a b) (h' : Above up b c) : Above up a c :=
  TransGen.trans h h'

theorem mono (hUp : ∀ x y, up x = some y → up' x = some y) {a b : α} (h : Above up a b) :
    Above up' a b :=
  Relation.TransGen.mono hUp a b h

/-- The first step up is the parent. -/
theorem iff_parent {a b p : α} (h : up a = some p) : Above up a b ↔ p = b ∨ Above up p b := by
  constructor
  · intro hAbove
    rcases TransGen.head'_iff.mp hAbove with ⟨q, hq, hRest⟩
    obtain rfl : p = q := Option.some.inj (h.symm.trans hq)
    exact Relation.reflTransGen_iff_eq_or_transGen.mp hRest |>.imp_left Eq.symm
  · rintro (rfl | hAbove)
    · exact single h
    · exact (single h).trans hAbove

theorem not_of_orphan {a b : α} (h : up a = none) : ¬Above up a b := by
  intro hAbove
  obtain ⟨p, hp, -⟩ := TransGen.head'_iff.mp hAbove
  rw [h] at hp
  cases hp

/-- Two parent functions that agree on a set no step leaves have the same ancestors
there. -/
theorem congr_on (K : α → Prop) (hSame : ∀ x, K x → up' x = up x)
    (hClosed : ∀ x y, K x → up x = some y → K y) {a b : α} (ha : K a) :
    Above up' a b ↔ Above up a b := by
  have hBoth : ∀ {f g : α → Option α}, (∀ x, K x → g x = f x) →
      (∀ x y, K x → f x = some y → K y) → Above f a b → Above g a b ∧ K b := by
    intro f g hfg hf h
    induction h with
    | single hab => exact ⟨single ((hfg _ ha).trans hab), hf _ _ ha hab⟩
    | tail _ hbc ih => exact ⟨ih.1.trans (single ((hfg _ ih.2).trans hbc)), hf _ _ ih.2 hbc⟩
  constructor
  · intro h
    refine (hBoth (fun x hx => (hSame x hx).symm) (fun x y hx hxy => ?_) h).1
    exact hClosed x y hx ((hSame x hx).symm.trans hxy)
  · exact fun h => (hBoth hSame hClosed h).1

end Above

section Measures

/-- A parent function that goes down in some measure has no cycle. -/
theorem acyclic_of_measure (size : α → Nat) (h : ∀ a b, up a = some b → size b < size a) :
    Acyclic up := by
  have hLt : ∀ {a b}, Above up a b → size b < size a := by
    intro a b hAbove
    induction hAbove with
    | single hab => exact h _ _ hab
    | tail _ hbc ih => exact (h _ _ hbc).trans ih
  exact fun a ha => lt_irrefl _ (hLt ha)

theorem Acyclic.mono (h : Acyclic up') (hUp : ∀ x y, up x = some y → up' x = some y) :
    Acyclic up :=
  fun a ha => h a (ha.mono hUp)

variable [DecidableEq α]

theorem Acyclic.hang (h : Acyclic up) {child parent : α} (hNe : child ≠ parent)
    (hBelow : ¬Above up parent child) :
    Acyclic (Function.update up child (some parent)) := by
  -- No ascent from an element that does not pass `child` has changed.
  have hOld : ∀ {a b}, Above (Function.update up child (some parent)) a b →
      Above up a b ∨ ((a = child ∨ Above up a child) ∧ (b = parent ∨ Above up parent b)) := by
    intro a b hAbove
    induction hAbove with
    | @single b hab =>
      by_cases ha : a = child
      · rw [ha, Function.update_self] at hab
        exact .inr ⟨.inl ha, .inl (Option.some.inj hab).symm⟩
      · rw [Function.update_of_ne ha] at hab
        exact .inl (Above.single hab)
    | @tail b c _ hbc ih =>
      by_cases hb : b = child
      · rw [hb, Function.update_self] at hbc
        obtain rfl := Option.some.inj hbc
        rcases ih with ih | ⟨ha, hb' | hb'⟩
        · exact .inr ⟨.inr (hb ▸ ih), .inl rfl⟩
        · exact absurd (hb.symm.trans hb') hNe
        · exact absurd (hb ▸ hb') hBelow
      · rw [Function.update_of_ne hb] at hbc
        rcases ih with ih | ⟨ha, rfl | hb'⟩
        · exact .inl (ih.trans (Above.single hbc))
        · exact .inr ⟨ha, .inr (Above.single hbc)⟩
        · exact .inr ⟨ha, .inr (hb'.trans (Above.single hbc))⟩
  intro a ha
  rcases hOld ha with hUp | ⟨rfl | hDown, rfl | hUp⟩
  · exact h a hUp
  · exact hNe rfl
  · exact hBelow hUp
  · exact hBelow hDown
  · exact hBelow (hUp.trans hDown)

end Measures

section Ascent

/-- The element `n` steps up. -/
def ascend (up : α → Option α) : Nat → α → Option α
  | 0, a => some a
  | n + 1, a => (up a).bind (ascend up n)

@[simp] theorem ascend_zero (a : α) : ascend up 0 a = some a := rfl

theorem ascend_succ (n : Nat) (a : α) : ascend up (n + 1) a = (up a).bind (ascend up n) := rfl

theorem ascend_add (m n : Nat) (a : α) : ascend up (m + n) a = (ascend up m a).bind (ascend up n) := by
  induction m generalizing a with
  | zero => simp
  | succ m ih =>
    rw [Nat.add_right_comm, ascend_succ, ascend_succ]
    cases up a with
    | none => rfl
    | some p => exact ih p

theorem above_of_ascend {n : Nat} {a b : α} (h : ascend up (n + 1) a = some b) : Above up a b := by
  induction n generalizing a with
  | zero =>
    obtain ⟨p, hp, hb⟩ := Option.bind_eq_some_iff.mp h
    exact Above.single (hp.trans hb)
  | succ n ih =>
    obtain ⟨p, hp, hb⟩ := Option.bind_eq_some_iff.mp h
    exact (Above.single hp).trans (ih hb)

theorem ascend_eq_none_of_le {m n : Nat} (h : m ≤ n) {a : α} (hEnd : ascend up m a = none) :
    ascend up n a = none := by
  obtain ⟨k, rfl⟩ := Nat.exists_eq_add_of_le h
  rw [ascend_add, hEnd]
  rfl

/-- An acyclic ascent makes at most as many steps as there are children. -/
theorem Acyclic.ascend_eq_none (h : Acyclic up) (children : Finset α)
    (hChildren : ∀ x, up x ≠ none → x ∈ children) (a : α) :
    ascend up (children.card + 1) a = none := by
  by_contra hLong
  have hStep : ∀ i ≤ children.card, ∃ x ∈ children, ascend up i a = some x := by
    intro i hi
    have hSplit : children.card + 1 = i + (children.card - i + 1) := by omega
    cases hAt : ascend up i a with
    | none =>
      rw [hSplit, ascend_add, hAt] at hLong
      exact absurd rfl hLong
    | some x =>
      refine ⟨x, hChildren x fun hNone => hLong ?_, rfl⟩
      rw [hSplit, ascend_add, hAt, Option.bind_some, ascend_succ, hNone]
      rfl
  choose at' hAt using hStep
  let visit (i : Fin (children.card + 1)) : children :=
    ⟨at' i (Nat.lt_succ_iff.mp i.isLt), (hAt i _).1⟩
  -- One more step than there are children visits one of them twice.
  obtain ⟨i, j, hNe, hEq⟩ := Fintype.exists_ne_map_eq_of_card_lt visit (by simp)
  wlog hLt : i < j generalizing i j
  · exact this j i hNe.symm hEq.symm (lt_of_le_of_ne (not_lt.mp hLt) hNe.symm)
  have hi := (hAt i (Nat.lt_succ_iff.mp i.isLt)).2
  have hj := (hAt j (Nat.lt_succ_iff.mp j.isLt)).2
  have hSame : at' i (Nat.lt_succ_iff.mp i.isLt) = at' j (Nat.lt_succ_iff.mp j.isLt) :=
    congrArg Subtype.val hEq
  have hSplit : (j : Nat) = i + ((j - i - 1) + 1) := by
    have : (i : Nat) < j := hLt
    omega
  have hAgain : ascend up (i + ((j - i - 1) + 1)) a = some (at' i (Nat.lt_succ_iff.mp i.isLt)) := by
    rw [← hSplit, hj, hSame]
  rw [ascend_add, hi, Option.bind_some] at hAgain
  exact h _ (above_of_ascend hAgain)

/-- A parent function whose ascents all end is acyclic. -/
theorem acyclic_of_ascends (h : ∀ a, ∃ n, ascend up n a = none) : Acyclic up := by
  classical
  refine acyclic_of_measure (fun a => Nat.find (h a)) fun a b hab => ?_
  have hSpec := Nat.find_spec (h a)
  cases hFind : Nat.find (h a) with
  | zero =>
    rw [hFind] at hSpec
    cases hSpec
  | succ n =>
    rw [hFind, ascend_succ, hab, Option.bind_some] at hSpec
    exact Nat.lt_succ_of_le (Nat.find_min' (h b) hSpec)

end Ascent

end CrdtSync.Lib
