import Mathlib.Data.Finset.Card
import Mathlib.Logic.Relation

/-!
# Layered search

A breadth-first search that keeps what it has seen and the layer first reached
last, with a bound on its layers. Every layer that goes on has seen somebody new,
so a bound above the size of a roster that holds all there is to see is never the
reason the search ends.
-/

namespace CrdtSync.Lib

open Relation

variable {α : Type*} [DecidableEq α] (succ : α → List α)

def admitAll (ups : List α) (seen layer : List α) : List α × List α :=
  ups.foldl (fun (seen, next) up => if up ∈ seen then (seen, next) else (seen ++ [up], next ++ [up]))
    (seen, layer)

def layerSearch (goal : α) : Nat → List α → List α → Bool
  | 0, _, _ => false
  | fuel + 1, seen, frontier =>
    if goal ∈ frontier.flatMap succ then true
    else
      let (seen, next) := admitAll (frontier.flatMap succ) seen []
      if next.isEmpty then false else layerSearch goal fuel seen next

theorem admitAll_cons (up : α) (ups seen layer : List α) : admitAll (up :: ups) seen layer =
    if up ∈ seen then admitAll ups seen layer
    else admitAll ups (seen ++ [up]) (layer ++ [up]) := by
  rw [admitAll, List.foldl_cons]
  dsimp only
  split <;> rfl

theorem admitAll_spec (ups seen layer : List α) :
    ∃ fresh : List α, admitAll ups seen layer = (seen ++ fresh, layer ++ fresh) ∧ fresh.Nodup ∧
      ∀ a, a ∈ fresh ↔ a ∈ ups ∧ a ∉ seen := by
  induction ups generalizing seen layer with
  | nil => exact ⟨[], by simp [admitAll], .nil, by simp⟩
  | cons up ups ih =>
    rw [admitAll_cons]
    split
    next hSeen =>
      obtain ⟨fresh, hEq, hNodup, hMem⟩ := ih seen layer
      refine ⟨fresh, hEq, hNodup, ?_⟩
      intro a
      rw [hMem, List.mem_cons]
      constructor
      · rintro ⟨hUps, hNew⟩
        exact ⟨.inr hUps, hNew⟩
      · rintro ⟨rfl | hUps, hNew⟩
        · exact absurd hSeen hNew
        · exact ⟨hUps, hNew⟩
    next hNew =>
      obtain ⟨fresh, hEq, hNodup, hMem⟩ := ih (seen ++ [up]) (layer ++ [up])
      refine ⟨up :: fresh, ?_, ?_, ?_⟩
      · rw [hEq, List.append_assoc, List.append_assoc]
        rfl
      · rw [List.nodup_cons, hMem]
        exact ⟨fun h => h.2 (List.mem_append_right _ List.mem_cons_self), hNodup⟩
      · intro a
        rw [List.mem_cons, hMem, List.mem_cons, List.mem_append, List.mem_singleton]
        constructor
        · rintro (rfl | ⟨hUps, hApart⟩)
          · exact ⟨.inl rfl, hNew⟩
          · exact ⟨.inr hUps, fun hSeen => hApart (.inl hSeen)⟩
        · rintro ⟨rfl | hUps, hApart⟩
          · exact .inl rfl
          · by_cases hSame : a = up
            · exact .inl hSame
            · exact .inr ⟨hUps, not_or.mpr ⟨hApart, hSame⟩⟩

variable {succ}

/-- What the search knows between two layers. -/
structure Searched (succ : α → List α) (start goal : α) (seen frontier : List α) : Prop where
  nodup : seen.Nodup
  begun : start ∈ seen
  reached : ∀ a ∈ seen, ReflTransGen (fun a b => b ∈ succ a) start a
  within : ∀ a ∈ frontier, a ∈ seen
  passed : ∀ a ∈ seen, a ∈ frontier ∨ ∀ b ∈ succ a, b ∈ seen ∧ b ≠ goal

variable {start goal : α} {seen frontier : List α}

omit [DecidableEq α] in
theorem searched_start : Searched succ start goal [start] [start] where
  nodup := List.nodup_singleton start
  begun := List.mem_cons_self
  reached _ ha := List.mem_singleton.mp ha ▸ .refl
  within _ := id
  passed _ := .inl

omit [DecidableEq α] in
theorem Searched.not_reached (h : Searched succ start goal seen []) :
    ¬TransGen (fun a b => b ∈ succ a) start goal := by
  have hClosed : ∀ a ∈ seen, ∀ b ∈ succ a, b ∈ seen ∧ b ≠ goal := by
    intro a ha
    exact (h.passed a ha).resolve_left List.not_mem_nil
  have hAll : ∀ b, TransGen (fun a b => b ∈ succ a) start b → b ∈ seen ∧ b ≠ goal := by
    intro b hb
    induction hb with
    | single hStep => exact hClosed start h.begun _ hStep
    | tail _ hStep ih => exact hClosed _ ih.1 _ hStep
  exact fun hGoal => (hAll goal hGoal).2 rfl

theorem Searched.layer (h : Searched succ start goal seen frontier)
    (hGoal : goal ∉ frontier.flatMap succ) {fresh : List α} (hNodup : fresh.Nodup)
    (hFresh : ∀ a, a ∈ fresh ↔ a ∈ frontier.flatMap succ ∧ a ∉ seen) :
    Searched succ start goal (seen ++ fresh) fresh where
  nodup := by
    refine List.nodup_append.mpr ⟨h.nodup, hNodup, ?_⟩
    rintro a ha b hb rfl
    exact ((hFresh a).mp hb).2 ha
  begun := List.mem_append_left _ h.begun
  reached a ha := by
    obtain hSeen | hNew := List.mem_append.mp ha
    · exact h.reached a hSeen
    · obtain ⟨parent, hParent, hStep⟩ := List.mem_flatMap.mp ((hFresh a).mp hNew).1
      exact (h.reached parent (h.within parent hParent)).tail hStep
  within a ha := List.mem_append_right _ ha
  passed a ha := by
    obtain hSeen | hNew := List.mem_append.mp ha
    · refine .inr fun b hb => ?_
      obtain hFrontier | hPassed := h.passed a hSeen
      · have hLayer : b ∈ frontier.flatMap succ := List.mem_flatMap.mpr ⟨a, hFrontier, hb⟩
        refine ⟨?_, ?_⟩
        · by_cases hOld : b ∈ seen
          · exact List.mem_append_left _ hOld
          · exact List.mem_append_right _ ((hFresh b).mpr ⟨hLayer, hOld⟩)
        · rintro rfl
          exact hGoal hLayer
      · exact ⟨List.mem_append_left _ (hPassed b hb).1, (hPassed b hb).2⟩
    · exact .inl hNew

/-- The search finds exactly what a chain of successors leads to. -/
theorem Searched.layerSearch_iff {roster : Finset α} {fuel : Nat}
    (h : Searched succ start goal seen frontier) (hSeen : ∀ a ∈ seen, a ∈ roster)
    (hSucc : ∀ a, ∀ b ∈ succ a, b ∈ roster) (hFuel : roster.card < fuel + seen.length) :
    layerSearch succ goal fuel seen frontier = true ↔
      TransGen (fun a b => b ∈ succ a) start goal := by
  induction fuel generalizing seen frontier with
  | zero =>
    have hFits : seen.length ≤ roster.card := by
      rw [← List.toFinset_card_of_nodup h.nodup]
      exact Finset.card_le_card fun a ha => hSeen a (List.mem_toFinset.mp ha)
    omega
  | succ fuel ih =>
    obtain ⟨fresh, hEq, hNodup, hFresh⟩ := admitAll_spec (frontier.flatMap succ) seen []
    rw [List.nil_append] at hEq
    rw [layerSearch]
    split
    next hFound =>
      obtain ⟨a, ha, hStep⟩ := List.mem_flatMap.mp hFound
      exact iff_of_true rfl (.tail' (h.reached a (h.within a ha)) hStep)
    next hGoal =>
      have hLayer := h.layer hGoal hNodup hFresh
      simp only [hEq]
      split
      next hEmpty =>
        rw [List.isEmpty_iff] at hEmpty
        rw [hEmpty] at hLayer
        exact iff_of_false Bool.false_ne_true hLayer.not_reached
      next hMore =>
        have hLonger : 0 < fresh.length :=
          List.length_pos_of_ne_nil fun hNil => hMore (List.isEmpty_iff.mpr hNil)
        refine ih hLayer ?_ ?_
        · intro a ha
          obtain hOld | hNew := List.mem_append.mp ha
          · exact hSeen a hOld
          · obtain ⟨parent, -, hStep⟩ := List.mem_flatMap.mp ((hFresh a).mp hNew).1
            exact hSucc parent a hStep
        · rw [List.length_append]
          omega

end CrdtSync.Lib
