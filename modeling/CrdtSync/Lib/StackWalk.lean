import Mathlib.Algebra.Ring.Nat
import Mathlib.Data.Finset.Insert
import Mathlib.Data.List.Lex

/-!
# Walks over an explicit stack

A graph is walked from a stack of items. An item that is taken off the stack is descended into
under its mark, the first time the mark is met: what comes next of it goes on the stack in its
place. The walk ends on every graph the marks of which are finitely many, with sharing and
cycles too; it takes what can be reached and nothing else; and where the items have places that
grow step by step, it takes them in the order of their places.
-/

namespace CrdtSync.Lib

/-- What is walked: the mark an item is descended into under, if it is, and the items that come
next of it, in order. -/
structure StackWalk (W I : Type*) where
  mark : W → Option I
  next : W → List W

namespace StackWalk

variable {W I : Type*} [DecidableEq I]

structure State (W I : Type*) where
  visited : Finset I
  trace : List W
  stack : List W

def take (g : StackWalk W I) (s : State W I) (w : W) (rest : List W) : State W I :=
  match g.mark w with
  | none => ⟨s.visited, s.trace ++ [w], rest⟩
  | some i =>
    if i ∈ s.visited then ⟨s.visited, s.trace ++ [w], rest⟩
    else ⟨insert i s.visited, s.trace ++ [w], g.next w ++ rest⟩

def loop (g : StackWalk W I) : Nat → State W I → State W I
  | 0, s => s
  | fuel + 1, s =>
    match s.stack with
    | [] => s
    | w :: rest => g.loop fuel (g.take s w rest)

variable {g : StackWalk W I} {s s' : State W I}

theorem take_cases (g : StackWalk W I) (s : State W I) (w : W) (rest : List W) :
    (g.take s w rest = ⟨s.visited, s.trace ++ [w], rest⟩ ∧ ∀ i ∈ g.mark w, i ∈ s.visited) ∨
      ∃ i, g.mark w = some i ∧ i ∉ s.visited ∧
        g.take s w rest = ⟨insert i s.visited, s.trace ++ [w], g.next w ++ rest⟩ := by
  unfold take
  split
  next hMark => exact .inl ⟨rfl, fun i hi => by rw [hMark] at hi; cases hi⟩
  next i hMark =>
    split
    next hSeen => exact .inl ⟨rfl, fun j hj => by rw [hMark] at hj; cases hj; exact hSeen⟩
    next hNew => exact .inr ⟨i, hMark, hNew, rfl⟩

/-- What every taking preserves holds at the end. -/
theorem loop_induct {P : State W I → Prop}
    (hTake : ∀ s w rest, s.stack = w :: rest → P s → P (g.take s w rest)) {fuel : Nat}
    (h : P s) : P (g.loop fuel s) := by
  induction fuel generalizing s with
  | zero => exact h
  | succ fuel ih =>
    unfold loop
    split
    · exact h
    next w rest hStack => exact ih (hTake s w rest hStack h)

/-! ### The end of a walk -/

/-- How many items can still come on the stack under marks not yet met. -/
def unmet (ids : List I) (degree : I → Nat) (visited : Finset I) : Nat :=
  ((ids.filter (· ∉ visited)).map degree).sum

theorem unmet_insert {ids : List I} (hIds : ids.Nodup) (degree : I → Nat) {visited : Finset I}
    {i : I} (hNew : i ∉ visited) :
    unmet ids degree visited =
      unmet ids degree (insert i visited) + if i ∈ ids then degree i else 0 := by
  unfold unmet
  induction ids with
  | nil => rfl
  | cons a ids ih =>
    obtain ⟨ha, hIds⟩ := List.nodup_cons.mp hIds
    have ih := ih hIds
    rw [List.filter_cons, List.filter_cons]
    by_cases hSame : a = i
    · subst hSame
      rw [if_pos (by simpa using hNew), if_neg (by simp), if_pos List.mem_cons_self, List.map_cons,
        List.sum_cons, ih, if_neg ha]
      omega
    · have hMem : i ∈ a :: ids ↔ i ∈ ids := by simp [Ne.symm hSame]
      by_cases hSeen : a ∈ visited
      · rw [if_neg (by simpa using hSeen), if_neg (by simp [hSeen]), ih, if_congr hMem rfl rfl]
      · rw [if_pos (by simpa using hSeen), if_pos (by simp [hSame, hSeen]), List.map_cons,
          List.map_cons, List.sum_cons, List.sum_cons, ih, if_congr hMem rfl rfl]
        omega

/-- No item has more next of it than its mark allows, and only the listed marks allow any. -/
def Bounded (g : StackWalk W I) (ids : List I) (degree : I → Nat) : Prop :=
  ∀ w i, g.mark w = some i → (g.next w).length ≤ if i ∈ ids then degree i else 0

/-- A walk with a step for everything that can come on the stack empties it. -/
theorem loop_stack {ids : List I} {degree : I → Nat} (hIds : ids.Nodup)
    (hBound : g.Bounded ids degree) {fuel : Nat}
    (hFuel : s.stack.length + unmet ids degree s.visited ≤ fuel) :
    (g.loop fuel s).stack = [] := by
  induction fuel generalizing s with
  | zero => exact List.eq_nil_of_length_eq_zero (by change s.stack.length = 0; omega)
  | succ fuel ih =>
    unfold loop
    split
    next hNil => exact hNil
    next w rest hStack =>
      rw [hStack, List.length_cons] at hFuel
      obtain ⟨hTake, -⟩ | ⟨i, hMark, hNew, hTake⟩ := g.take_cases s w rest
      · rw [hTake]
        refine ih ?_
        dsimp only
        omega
      · rw [hTake]
        refine ih ?_
        have hNext := hBound w i hMark
        have hUnmet := unmet_insert hIds degree hNew
        dsimp only
        rw [List.length_append]
        omega

/-! ### What is taken -/

/-- The items next of which are descended into, from the root on. -/
inductive Reached (g : StackWalk W I) (root : W) : W → Prop
  | root : Reached g root root
  | next {w w' : W} {i : I} : Reached g root w → g.mark w = some i → w' ∈ g.next w →
      Reached g root w'

theorem reached_loop {root : W} {fuel : Nat} {w : W}
    (hw : w ∈ (g.loop fuel ⟨∅, [], [root]⟩).trace ++ (g.loop fuel ⟨∅, [], [root]⟩).stack) :
    g.Reached root w := by
  have hAll : ∀ w ∈ (g.loop fuel ⟨∅, [], [root]⟩).trace ++ (g.loop fuel ⟨∅, [], [root]⟩).stack,
      g.Reached root w := by
    refine loop_induct (P := fun s => ∀ w ∈ s.trace ++ s.stack, g.Reached root w) ?_ ?_
    · intro s w rest hStack hReached w' hw'
      rw [hStack] at hReached
      have hTop : g.Reached root w :=
        hReached w (List.mem_append_right _ List.mem_cons_self)
      obtain ⟨hTake, -⟩ | ⟨i, hMark, -, hTake⟩ := g.take_cases s w rest
      · rw [hTake] at hw'
        refine hReached w' ?_
        simpa [or_assoc] using hw'
      · rw [hTake] at hw'
        obtain hOld | hNext : w' ∈ s.trace ++ w :: rest ∨ w' ∈ g.next w := by
          simp only [List.append_assoc, List.mem_append, List.mem_cons] at hw' ⊢
          tauto
        · exact hReached w' hOld
        · exact .next hTop hMark hNext
    · intro w hw
      rw [List.nil_append, List.mem_singleton] at hw
      exact hw ▸ .root
  exact hAll w hw

/-- A mark that was met has an item under it that was taken, and all that comes next of the item
is taken or waits. -/
def Covers (g : StackWalk W I) (s : State W I) : Prop :=
  (∀ w ∈ s.trace, ∀ i ∈ g.mark w, i ∈ s.visited) ∧
    ∀ i ∈ s.visited, ∃ w ∈ s.trace, g.mark w = some i ∧ ∀ w' ∈ g.next w, w' ∈ s.trace ++ s.stack

theorem Covers.take {w : W} {rest : List W} (h : g.Covers s) (hStack : s.stack = w :: rest) :
    g.Covers (g.take s w rest) := by
  obtain ⟨hMet, hDescended⟩ := h
  obtain ⟨hTake, hSeen⟩ | ⟨i, hMark, hNew, hTake⟩ := g.take_cases s w rest
  · rw [hTake]
    constructor
    · intro w' hw' i hi
      obtain hOld | hTop := List.mem_append.mp hw'
      · exact hMet w' hOld i hi
      · exact hSeen i (List.mem_singleton.mp hTop ▸ hi)
    · intro i hi
      obtain ⟨w', hw', hMark, hNext⟩ := hDescended i hi
      refine ⟨w', List.mem_append_left _ hw', hMark, fun w'' hw'' => ?_⟩
      have hHeld := hNext w'' hw''
      rw [hStack] at hHeld
      simpa [or_assoc] using hHeld
  · rw [hTake]
    constructor
    · intro w' hw' j hj
      obtain hOld | hTop := List.mem_append.mp hw'
      · exact Finset.mem_insert_of_mem (hMet w' hOld j hj)
      · rw [List.mem_singleton.mp hTop, hMark] at hj
        cases hj
        exact Finset.mem_insert_self ..
    · intro j hj
      obtain rfl | hOld := Finset.mem_insert.mp hj
      · refine ⟨w, by simp, hMark, fun w' hw' => ?_⟩
        simp [hw']
      · obtain ⟨w', hw', hMark', hNext⟩ := hDescended j hOld
        refine ⟨w', List.mem_append_left _ hw', hMark', fun w'' hw'' => ?_⟩
        have hHeld := hNext w'' hw''
        rw [hStack] at hHeld
        simp only [List.mem_append, List.mem_cons] at hHeld ⊢
        tauto

/-- After a walk that empties its stack, the root has been taken, and under each mark that was
met an item all the next of which was taken. -/
theorem covers_loop {root : W} {fuel : Nat} (hEnd : (g.loop fuel ⟨∅, [], [root]⟩).stack = []) :
    root ∈ (g.loop fuel ⟨∅, [], [root]⟩).trace ∧
      ∀ w ∈ (g.loop fuel ⟨∅, [], [root]⟩).trace, ∀ i ∈ g.mark w,
        ∃ w' ∈ (g.loop fuel ⟨∅, [], [root]⟩).trace, g.mark w' = some i ∧
          ∀ w'' ∈ g.next w', w'' ∈ (g.loop fuel ⟨∅, [], [root]⟩).trace := by
  have hCovers : g.Covers (g.loop fuel ⟨∅, [], [root]⟩) :=
    loop_induct (P := g.Covers) (fun s w rest hStack h => h.take hStack)
      ⟨fun w hw => absurd hw List.not_mem_nil, fun i hi => absurd hi (Finset.notMem_empty i)⟩
  have hRoot : root ∈ (g.loop fuel ⟨∅, [], [root]⟩).trace ++
      (g.loop fuel ⟨∅, [], [root]⟩).stack := by
    refine loop_induct (P := fun s => root ∈ s.trace ++ s.stack) ?_ (by simp)
    intro s w rest hStack hHeld
    rw [hStack] at hHeld
    obtain ⟨hTake, -⟩ | ⟨i, -, -, hTake⟩ := g.take_cases s w rest
    · rw [hTake]
      simpa [or_assoc] using hHeld
    · rw [hTake]
      simp only [List.mem_append, List.mem_cons] at hHeld ⊢
      tauto
  rw [hEnd, List.append_nil] at hRoot
  refine ⟨hRoot, fun w hw i hi => ?_⟩
  obtain ⟨w', hw', hMark, hNext⟩ := hCovers.2 i (hCovers.1 w hw i hi)
  refine ⟨w', hw', hMark, fun w'' hw'' => ?_⟩
  have hHeld := hNext w'' hw''
  rwa [hEnd, List.append_nil] at hHeld

/-! ### The order -/

section Order

variable {K : Type*} [LinearOrder K]

/-- Two places that part, the first one before the second. -/
def Parts (a b : List K) : Prop := a < b ∧ ¬a <+: b

theorem lt_append_singleton (a : List K) (k : K) : a < a ++ [k] := by
  induction a with
  | nil => exact List.Lex.nil
  | cons x a ih => exact List.Lex.cons ih

theorem Parts.append_left {a b : List K} (h : Parts a b) (k : K) : Parts (a ++ [k]) b := by
  obtain ⟨hLt, hPrefix⟩ := h
  induction a generalizing b with
  | nil => exact absurd List.nil_prefix hPrefix
  | cons x a ih =>
    cases hLt with
    | rel hxy =>
      refine ⟨List.Lex.rel hxy, fun hPrefix => ?_⟩
      rw [List.cons_append, List.cons_prefix_cons] at hPrefix
      exact hxy.ne hPrefix.1
    | cons hTail =>
      obtain ⟨hLt, hNot⟩ := ih hTail fun hPre => hPrefix (List.cons_prefix_cons.mpr ⟨rfl, hPre⟩)
      exact ⟨List.Lex.cons hLt, fun hPre => hNot (List.cons_prefix_cons.mp hPre).2⟩

theorem parts_append_singleton (a : List K) {k k' : K} (h : k < k') :
    Parts (a ++ [k]) (a ++ [k']) := by
  induction a with
  | nil =>
    refine ⟨List.Lex.rel h, fun hPrefix => ?_⟩
    rw [List.nil_append, List.nil_append, List.cons_prefix_cons] at hPrefix
    exact h.ne hPrefix.1
  | cons x a ih =>
    exact ⟨List.Lex.cons ih.1, fun hPrefix => ih.2 (List.cons_prefix_cons.mp hPrefix).2⟩

/-- Each item next of another has the place of that one and one step more, and the steps go up. -/
def Placed (g : StackWalk W I) (place : W → List K) : Prop :=
  ∀ w, ∃ steps : List K, steps.Pairwise (· < ·) ∧
    (g.next w).map place = steps.map fun k => place w ++ [k]

/-- What is taken is taken in order, and what waits comes after it and parts. -/
def Ordered (place : W → List K) (s : State W I) : Prop :=
  (s.trace ++ s.stack).Pairwise (fun w w' => place w < place w') ∧
    s.stack.Pairwise fun w w' => Parts (place w) (place w')

theorem Ordered.take {place : W → List K} (hPlaced : g.Placed place) (h : Ordered place s) {w : W}
    {rest : List W} (hStack : s.stack = w :: rest) : Ordered place (g.take s w rest) := by
  obtain ⟨hOrder, hParts⟩ := h
  rw [hStack] at hOrder hParts
  have hOld : (s.trace ++ [w] ++ rest).Pairwise fun w w' => place w < place w' := by
    simpa using hOrder
  obtain ⟨hTake, -⟩ | ⟨i, -, -, hTake⟩ := g.take_cases s w rest
  · rw [hTake]
    exact ⟨hOld, hParts.tail⟩
  rw [hTake]
  obtain ⟨steps, hSteps, hPlaces⟩ := hPlaced w
  have hChild : ∀ c ∈ g.next w, ∃ k ∈ steps, place c = place w ++ [k] := by
    intro c hc
    have hMem := List.mem_map_of_mem (f := place) hc
    rw [hPlaces] at hMem
    obtain ⟨k, hk, hEq⟩ := List.mem_map.mp hMem
    exact ⟨k, hk, hEq.symm⟩
  have hSiblings : (g.next w).Pairwise fun c c' => Parts (place c) (place c') := by
    rw [← List.pairwise_map (R := Parts), hPlaces, List.pairwise_map]
    exact hSteps.imp fun hLt => parts_append_singleton _ hLt
  have hBeyond : ∀ c ∈ g.next w, ∀ w' ∈ rest, Parts (place c) (place w') := by
    intro c hc w' hw'
    obtain ⟨k, -, hEq⟩ := hChild c hc
    rw [hEq]
    exact ((List.pairwise_cons.mp hParts).1 w' hw').append_left k
  have hSplit : (s.trace ++ [w] ++ rest).Pairwise fun w w' => place w < place w' := hOld
  rw [List.pairwise_append] at hSplit
  obtain ⟨hTaken, hRest, hAcross⟩ := hSplit
  refine ⟨?_, List.pairwise_append.mpr ⟨hSiblings, hParts.tail, hBeyond⟩⟩
  refine List.pairwise_append.mpr ⟨hTaken, List.pairwise_append.mpr
    ⟨hSiblings.imp fun hLt => hLt.1, hRest, fun c hc w' hw' => (hBeyond c hc w' hw').1⟩, ?_⟩
  intro w₀ hw₀ w' hw'
  obtain hNext | hLater := List.mem_append.mp hw'
  · obtain ⟨k, -, hEq⟩ := hChild w' hNext
    have hUnder : place w < place w' := hEq ▸ lt_append_singleton _ _
    obtain hEarlier | hTop := List.mem_append.mp hw₀
    · have hBefore := (List.pairwise_append.mp hTaken).2.2 w₀ hEarlier w List.mem_cons_self
      exact hBefore.trans hUnder
    · rw [List.mem_singleton.mp hTop]
      exact hUnder
  · exact hAcross w₀ hw₀ w' hLater

/-- A walk takes the items in the order of their places, no place twice. -/
theorem ordered_loop {place : W → List K} (hPlaced : g.Placed place) (root : W) (fuel : Nat) :
    (g.loop fuel ⟨∅, [], [root]⟩).trace.Pairwise fun w w' => place w < place w' := by
  have hOrdered : Ordered place (g.loop fuel ⟨∅, [], [root]⟩) :=
    loop_induct (P := Ordered place) (fun s w rest hStack h => h.take hPlaced hStack)
      ⟨List.pairwise_singleton _ _, List.pairwise_singleton _ _⟩
  exact (List.pairwise_append.mp hOrdered.1).1

end Order

end StackWalk

end CrdtSync.Lib
