import Mathlib.Data.List.Basic
import Mathlib.Logic.Relation

/-!
# Walks down a tree

A recursion that gives out something at each node and then walks the nodes below it, in order. It
has no bound of its own, so it is run on fuel. It ends wherever nothing is below itself, and gives
out what every node that can be reached does and nothing else.
-/

namespace CrdtSync.Lib

structure TreeWalk (W A : Type*) where
  below : W → List W
  emit : W → List A

namespace TreeWalk

variable {W A : Type*} (t : TreeWalk W A)

def walk : Nat → W → Option (List A)
  | 0, _ => none
  | fuel + 1, w => ((t.below w).mapM (walk fuel)).map fun outs => t.emit w ++ outs.flatten

/-- One node is right below another. -/
def Below (child parent : W) : Prop := child ∈ t.below parent

/-- A node is reached from another, going down. -/
def Reaches : W → W → Prop := Relation.ReflTransGen fun parent child => t.Below child parent

variable {t}

theorem mapM_eq_some_iff {α β : Type*} {f : α → Option β} {as : List α} {bs : List β} :
    as.mapM f = some bs ↔ as.map f = bs.map some := by
  induction as generalizing bs with
  | nil => cases bs <;> simp
  | cons a as ih =>
    rw [List.mapM_cons, List.map_cons]
    cases bs with
    | nil => cases f a <;> cases as.mapM f <;> simp
    | cons b bs =>
      rw [List.map_cons, List.cons.injEq, ← ih]
      cases f a <;> cases as.mapM f <;> simp

theorem walk_succ_iff {fuel : Nat} {w : W} {out : List A} :
    t.walk (fuel + 1) w = some out ↔
      ∃ outs : List (List A), (t.below w).map (t.walk fuel) = outs.map some ∧
        t.emit w ++ outs.flatten = out := by
  rw [walk, Option.map_eq_some_iff]
  simp only [mapM_eq_some_iff]

theorem walk_mono {fuel fuel' : Nat} (hFuel : fuel ≤ fuel') {w : W} {out : List A}
    (h : t.walk fuel w = some out) : t.walk fuel' w = some out := by
  induction fuel generalizing fuel' w out with
  | zero => cases h
  | succ fuel ih =>
    cases fuel' with
    | zero => cases Nat.not_succ_le_zero fuel hFuel
    | succ fuel' =>
      obtain ⟨outs, hOuts, hOut⟩ := walk_succ_iff.mp h
      refine walk_succ_iff.mpr ⟨outs, ?_, hOut⟩
      rw [← hOuts]
      refine List.map_congr_left fun child hChild => ?_
      obtain ⟨out, -, hWalk⟩ := List.mem_map.mp (hOuts ▸ List.mem_map_of_mem hChild)
      rw [← hWalk, ih (Nat.le_of_succ_le_succ hFuel) hWalk.symm]

theorem exists_walk {w : W} (h : Acc t.Below w) : ∃ fuel out, t.walk fuel w = some out := by
  induction h with
  | intro w _ ih =>
    have hAll : ∀ children : List W, (∀ child ∈ children, t.Below child w) →
        ∃ (fuel : Nat) (outs : List (List A)), children.map (t.walk fuel) = outs.map some := by
      intro children hChildren
      induction children with
      | nil => exact ⟨0, [], rfl⟩
      | cons child children ihChildren =>
        obtain ⟨fuel, out, hOut⟩ := ih child (hChildren child List.mem_cons_self)
        obtain ⟨fuel', outs, hOuts⟩ := ihChildren fun other hOther =>
          hChildren other (List.mem_cons_of_mem _ hOther)
        refine ⟨fuel + fuel', out :: outs, ?_⟩
        rw [List.map_cons, List.map_cons, walk_mono (Nat.le_add_right ..) hOut, ← hOuts]
        refine congrArg _ (List.map_congr_left fun other hOther => ?_)
        obtain ⟨out, -, hWalk⟩ := List.mem_map.mp (hOuts ▸ List.mem_map_of_mem hOther)
        rw [← hWalk, walk_mono (Nat.le_add_left ..) hWalk.symm]
    obtain ⟨fuel, outs, hOuts⟩ := hAll (t.below w) fun _ hChild => hChild
    exact ⟨fuel + 1, _, walk_succ_iff.mpr ⟨outs, hOuts, rfl⟩⟩

theorem mem_walk_iff {fuel : Nat} {w : W} {out : List A} (h : t.walk fuel w = some out) {a : A} :
    a ∈ out ↔ ∃ x, t.Reaches w x ∧ a ∈ t.emit x := by
  induction fuel generalizing w out with
  | zero => cases h
  | succ fuel ih =>
    obtain ⟨outs, hOuts, rfl⟩ := walk_succ_iff.mp h
    rw [List.mem_append, List.mem_flatten]
    constructor
    · rintro (hOwn | ⟨out, hOut, hIn⟩)
      · exact ⟨w, .refl, hOwn⟩
      · obtain ⟨child, hChild, hWalk⟩ := List.mem_map.mp (hOuts ▸ List.mem_map_of_mem hOut)
        obtain ⟨x, hReaches, hEmit⟩ := (ih hWalk).mp hIn
        exact ⟨x, .head hChild hReaches, hEmit⟩
    · rintro ⟨x, hReaches, hEmit⟩
      rcases hReaches.cases_head with rfl | ⟨child, hChild, hRest⟩
      · exact .inl hEmit
      · obtain ⟨out, hOut, hWalk⟩ := List.mem_map.mp (hOuts ▸ List.mem_map_of_mem hChild)
        exact .inr ⟨out, hOut, (ih hWalk.symm).mpr ⟨x, hRest, hEmit⟩⟩

end TreeWalk

end CrdtSync.Lib
