import Mathlib.Data.Finset.Card
import Mathlib.Order.Bounds.Basic

/-!
# Saturation of a finite set

Rounds of a monotone admission rule: each round admits, from a fixed roster, every
candidate the rule accepts against the set so far. When no round admits anybody
the set is the least one that holds the seed and is closed under the rule.
-/

namespace CrdtSync.Lib

variable {α : Type*} [DecidableEq α]

section Rounds

variable (admits : Finset α → α → Prop) [∀ s, DecidablePred (admits s)] (roster : Finset α)

/-- The candidates of one round. -/
def newly (s : Finset α) : Finset α := roster.filter fun a => a ∉ s ∧ admits s a

def rounds : Nat → Finset α → Finset α
  | 0, s => s
  | fuel + 1, s =>
    let fresh := newly admits roster s
    if fresh = ∅ then s else rounds fuel (s ∪ fresh)

/-- A round that admits somebody uses up one roster member, so the roster bounds the rounds. -/
def saturate (seed : Finset α) : Finset α := rounds admits roster roster.card seed

end Rounds

/-- Nobody on the roster is accepted from outside the set. -/
def ClosedUnder (admits : Set α → α → Prop) (roster : Finset α) (s : Set α) : Prop :=
  ∀ a ∈ roster, admits s a → a ∈ s

variable {admits : Finset α → α → Prop} [∀ s, DecidablePred (admits s)] {roster : Finset α}

theorem mem_newly {s : Finset α} {a : α} :
    a ∈ newly admits roster s ↔ a ∈ roster ∧ a ∉ s ∧ admits s a := by
  simp [newly]

theorem saturate_eq_seed {seed : Finset α} (h : newly admits roster seed = ∅) :
    saturate admits roster seed = seed := by
  unfold saturate
  cases roster.card with
  | zero => rfl
  | succ fuel => rw [rounds, if_pos h]

/-- Rules that accept alike saturate alike. -/
theorem saturate_congr {admits' : Finset α → α → Prop} [∀ s, DecidablePred (admits' s)]
    (h : ∀ s a, admits s a ↔ admits' s a) (seed : Finset α) :
    saturate admits roster seed = saturate admits' roster seed := by
  have hNewly : ∀ s, newly admits roster s = newly admits' roster s := by
    intro s
    ext a
    rw [mem_newly, mem_newly, h]
  have hRounds : ∀ fuel s, rounds admits roster fuel s = rounds admits' roster fuel s := by
    intro fuel
    induction fuel with
    | zero => exact fun s => rfl
    | succ fuel ih =>
      intro s
      simp only [rounds, hNewly, ih]
  exact hRounds _ seed

theorem subset_rounds (fuel : Nat) (s : Finset α) : s ⊆ rounds admits roster fuel s := by
  induction fuel generalizing s with
  | zero => exact Finset.Subset.refl s
  | succ fuel ih =>
    simp only [rounds]
    split
    · exact Finset.Subset.refl s
    · exact Finset.subset_union_left.trans (ih _)

theorem newly_rounds (fuel : Nat) (s : Finset α) (hFuel : (roster \ s).card ≤ fuel) :
    newly admits roster (rounds admits roster fuel s) = ∅ := by
  induction fuel generalizing s with
  | zero =>
    have hAll : roster \ s = ∅ := Finset.card_eq_zero.mp (by omega)
    refine Finset.eq_empty_of_forall_notMem ?_
    intro a ha
    obtain ⟨hRoster, hFresh, -⟩ := mem_newly.mp ha
    have hLeft : a ∈ roster \ s := Finset.mem_sdiff.mpr ⟨hRoster, hFresh⟩
    simp [hAll] at hLeft
  | succ fuel ih =>
    simp only [rounds]
    split
    next hNone => exact hNone
    next hSome =>
      obtain ⟨a, ha⟩ := Finset.nonempty_iff_ne_empty.mpr hSome
      obtain ⟨hRoster, hFresh, -⟩ := mem_newly.mp ha
      refine ih _ ?_
      have hSub : roster \ (s ∪ newly admits roster s) ⊂ roster \ s := by
        refine Finset.ssubset_iff_subset_ne.mpr ⟨?_, ?_⟩
        · exact Finset.sdiff_subset_sdiff (Finset.Subset.refl _) Finset.subset_union_left
        · intro hEq
          have hLeft : a ∈ roster \ s := Finset.mem_sdiff.mpr ⟨hRoster, hFresh⟩
          rw [← hEq] at hLeft
          exact (Finset.mem_sdiff.mp hLeft).2 (Finset.mem_union_right s ha)
      have hCard := Finset.card_lt_card hSub
      omega

/-- Rounds stay inside every closed set above the set they start from. -/
theorem rounds_subset {rule : Set α → α → Prop} {S : Set α}
    (hRule : ∀ s : Finset α, (s : Set α) ⊆ S → ∀ a, admits s a → rule S a)
    (hClosed : ClosedUnder rule roster S) (fuel : Nat) (s : Finset α) (hs : (s : Set α) ⊆ S) :
    (rounds admits roster fuel s : Set α) ⊆ S := by
  induction fuel generalizing s with
  | zero => exact hs
  | succ fuel ih =>
    simp only [rounds]
    split
    · exact hs
    · refine ih _ ?_
      intro a ha
      obtain hOld | hNew := Finset.mem_union.mp (Finset.mem_coe.mp ha)
      · exact hs hOld
      · obtain ⟨hRoster, -, hAdmits⟩ := mem_newly.mp hNew
        exact hClosed a hRoster (hRule s hs a hAdmits)

theorem subset_saturate (seed : Finset α) : seed ⊆ saturate admits roster seed :=
  subset_rounds _ seed

theorem saturate_admits {seed : Finset α} {a : α} (hRoster : a ∈ roster)
    (ha : admits (saturate admits roster seed) a) : a ∈ saturate admits roster seed := by
  have hNone : newly admits roster (saturate admits roster seed) = ∅ :=
    newly_rounds _ seed (Finset.card_le_card Finset.sdiff_subset)
  by_contra hOut
  have hNew : a ∈ newly admits roster (saturate admits roster seed) :=
    mem_newly.mpr ⟨hRoster, hOut, ha⟩
  simp [hNone] at hNew

/-- Saturation under a monotone rule is the least closed set above the seed. -/
theorem saturate_isLeast {rule : Set α → α → Prop} (hRule : ∀ (s : Finset α) a, admits s a ↔ rule s a)
    (hMono : ∀ s t a, s ⊆ t → rule s a → rule t a) (seed : Finset α) :
    IsLeast {S : Set α | (seed : Set α) ⊆ S ∧ ClosedUnder rule roster S}
      (saturate admits roster seed) := by
  constructor
  · refine ⟨Finset.coe_subset.mpr (subset_saturate seed), ?_⟩
    intro a hRoster ha
    exact saturate_admits hRoster ((hRule _ a).mpr ha)
  · rintro S ⟨hSeed, hClosed⟩
    refine rounds_subset ?_ hClosed _ seed hSeed
    intro s hs a ha
    exact hMono s S a hs ((hRule s a).mp ha)

end CrdtSync.Lib
