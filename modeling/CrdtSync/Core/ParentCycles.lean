import CrdtSync.Core.ParentSteps

/-!
# Walks up the parent links

The decoder's check that every chain of parent links ends, and the reachability walk
that loops until one does. The check accepts a parent map exactly when no chain
revisits a container before the root.
-/

namespace CrdtSync

open Lib
open Std (ExtTreeMap)

/-- `DecodeError::BadTag`. -/
structure DecodeError where
  what : String
  tag : Nat
deriving DecidableEq

section Rejecting

/-- Follow one chain: the containers it passes if it ends, none if it revisits one. -/
def chainEnds (parents : Parents) (terminates : Finset ElementId) :
    Nat → Finset ElementId → ElementId → Option (Finset ElementId)
  | 0, _, _ => none
  | steps + 1, chain, cur =>
    if cur ∈ terminates then some chain
    else if cur ∈ chain then none
    else
      match parents[cur]? with
      | some parent => chainEnds parents terminates steps (insert cur chain) parent
      | none => some (insert cur chain)

def rejectFrom (parents : Parents) :
    List ElementId → Finset ElementId → Except DecodeError (Finset ElementId)
  | [], terminates => .ok terminates
  | start :: starts, terminates =>
    if start ∈ terminates then rejectFrom parents starts terminates
    else
      match chainEnds parents terminates (parents.size + 1) ∅ start with
      | some chain => rejectFrom parents starts (terminates ∪ chain)
      | none => .error ⟨"document: parent cycle", 0⟩

/-- Reject a parent map with a chain that does not terminate. -/
def rejectParentCycles (parents : Parents) (root : ElementId) : Except DecodeError Unit :=
  (rejectFrom parents parents.keys {root}).map fun _ => ()

def belowRoot (parents : Parents) (root x : ElementId) : Option ElementId :=
  if x = root then none else parents[x]?

variable {parents : Parents} {root : ElementId}

theorem ascend_belowRoot_eq_none (h : Acyclic (belowRoot parents root)) (x : ElementId) :
    ascend (belowRoot parents root) (parents.size + 1) x = none := by
  refine ascend_eq_none_of_le ?_ (h.ascend_eq_none parents.keys.toFinset (fun y hy => ?_) x)
  · exact Nat.succ_le_succ ((List.toFinset_card_le _).trans_eq ExtTreeMap.length_keys)
  · rw [List.mem_toFinset, ExtTreeMap.mem_keys, ExtTreeMap.mem_iff_isSome_getElem?,
      Option.isSome_iff_ne_none]
    unfold belowRoot at hy
    split at hy
    · exact absurd rfl hy
    · exact hy

/-- Whether every chain from a container ends. -/
def Ends (parents : Parents) (root x : ElementId) : Prop :=
  ∃ n, ascend (belowRoot parents root) n x = none

theorem Ends.of_parent {x p : ElementId} (hx : belowRoot parents root x = some p)
    (h : Ends parents root p) : Ends parents root x := by
  obtain ⟨n, hn⟩ := h
  exact ⟨n + 1, by rw [ascend_succ, hx]; exact hn⟩

theorem ends_of_orphan {x : ElementId} (hx : belowRoot parents root x = none) :
    Ends parents root x := ⟨1, by rw [ascend_succ, hx]; rfl⟩

theorem chainEnds_sound {terminates : Finset ElementId} (hRoot : root ∈ terminates)
    (hKnown : ∀ x ∈ terminates, Ends parents root x) {steps : Nat} {chain result : Finset ElementId}
    {cur : ElementId} (h : chainEnds parents terminates steps chain cur = some result)
    (hChain : Ends parents root cur → ∀ x ∈ chain, Ends parents root x) :
    Ends parents root cur ∧ ∀ x ∈ result, Ends parents root x := by
  induction steps generalizing chain cur with
  | zero => cases h
  | succ steps ih =>
    unfold chainEnds at h
    split at h
    · rename_i hCur
      obtain rfl := Option.some.inj h
      exact ⟨hKnown cur hCur, hChain (hKnown cur hCur)⟩
    · rename_i hCur
      have hNe : cur ≠ root := fun hEq => hCur (hEq ▸ hRoot)
      split at h
      · cases h
      · cases hParent : parents[cur]? with
        | none =>
          rw [hParent] at h
          obtain rfl := Option.some.inj h
          have hEnds : Ends parents root cur :=
            ends_of_orphan (by rw [belowRoot, if_neg hNe, hParent])
          refine ⟨hEnds, fun x hx => ?_⟩
          rcases Finset.mem_insert.mp hx with rfl | hx
          · exact hEnds
          · exact hChain hEnds x hx
        | some parent =>
          rw [hParent] at h
          have hUp : belowRoot parents root cur = some parent := by
            rw [belowRoot, if_neg hNe, hParent]
          obtain ⟨hEnds, hResult⟩ := ih h fun hEnds x hx => by
            have hHere := hEnds.of_parent hUp
            rcases Finset.mem_insert.mp hx with rfl | hx
            · exact hHere
            · exact hChain hHere x hx
          exact ⟨hEnds.of_parent hUp, hResult⟩

theorem chainEnds_complete (hAcyclic : Acyclic (belowRoot parents root))
    {terminates : Finset ElementId} (hRoot : root ∈ terminates) {steps : Nat}
    {chain : Finset ElementId} {cur : ElementId}
    (hEnds : ascend (belowRoot parents root) steps cur = none)
    (hChain : ∀ x ∈ chain, Above (belowRoot parents root) x cur) :
    (chainEnds parents terminates steps chain cur).isSome := by
  induction steps generalizing chain cur with
  | zero => cases hEnds
  | succ steps ih =>
    unfold chainEnds
    split
    · rfl
    · rename_i hCur
      have hNe : cur ≠ root := fun hEq => hCur (hEq ▸ hRoot)
      split
      · rename_i hIn
        exact absurd (hChain cur hIn) (hAcyclic cur)
      · cases hParent : parents[cur]? with
        | none => rfl
        | some parent =>
          have hUp : belowRoot parents root cur = some parent := by
            rw [belowRoot, if_neg hNe, hParent]
          rw [ascend_succ, hUp, Option.bind_some] at hEnds
          refine ih hEnds fun x hx => ?_
          rcases Finset.mem_insert.mp hx with rfl | hx
          · exact Above.single hUp
          · exact (hChain x hx).trans (Above.single hUp)

theorem rejectFrom_sound {starts : List ElementId} {terminates known : Finset ElementId}
    (hRoot : root ∈ terminates) (hKnown : ∀ x ∈ terminates, Ends parents root x)
    (h : rejectFrom parents starts terminates = .ok known) : ∀ x ∈ starts, Ends parents root x := by
  induction starts generalizing terminates with
  | nil => exact fun x hx => absurd hx List.not_mem_nil
  | cons start starts ih =>
    unfold rejectFrom at h
    split at h
    · rename_i hIn
      intro x hx
      rcases List.mem_cons.mp hx with rfl | hx
      · exact hKnown x hIn
      · exact ih hRoot hKnown h x hx
    · cases hChain : chainEnds parents terminates (parents.size + 1) ∅ start with
      | none =>
        rw [hChain] at h
        cases h
      | some chain =>
        rw [hChain] at h
        obtain ⟨hStart, hPassed⟩ := chainEnds_sound hRoot hKnown hChain
          fun _ x hx => absurd hx (Finset.notMem_empty x)
        intro x hx
        rcases List.mem_cons.mp hx with rfl | hx
        · exact hStart
        · refine ih (Finset.mem_union_left _ hRoot) (fun y hy => ?_) h x hx
          exact (Finset.mem_union.mp hy).elim (hKnown y) (hPassed y)

theorem rejectFrom_complete (hAcyclic : Acyclic (belowRoot parents root)) (starts : List ElementId)
    {terminates : Finset ElementId} (hRoot : root ∈ terminates) :
    ∃ known, rejectFrom parents starts terminates = .ok known := by
  induction starts generalizing terminates with
  | nil => exact ⟨terminates, rfl⟩
  | cons start starts ih =>
    unfold rejectFrom
    split
    · exact ih hRoot
    · obtain ⟨chain, hChain⟩ := Option.isSome_iff_exists.mp
        (chainEnds_complete hAcyclic hRoot (ascend_belowRoot_eq_none hAcyclic start)
          fun x hx => absurd hx (Finset.notMem_empty x))
      rw [hChain]
      exact ih (Finset.mem_union_left _ hRoot)

/-- The check accepts a parent map exactly when its links, cut at the root, are acyclic. -/
theorem rejectParentCycles_iff :
    rejectParentCycles parents root = .ok () ↔ Acyclic (belowRoot parents root) := by
  unfold rejectParentCycles
  constructor
  · intro h
    refine acyclic_of_ascends fun x => ?_
    cases hFrom : rejectFrom parents parents.keys {root} with
    | error e =>
      rw [hFrom] at h
      cases h
    | ok known =>
      by_cases hx : x ∈ parents.keys
      · refine rejectFrom_sound (Finset.mem_singleton_self root) (fun y hy => ?_) hFrom x hx
        rw [Finset.mem_singleton.mp hy]
        exact ends_of_orphan (if_pos rfl)
      · refine ends_of_orphan ?_
        rw [ExtTreeMap.mem_keys, ExtTreeMap.mem_iff_isSome_getElem?, Option.isSome_iff_ne_none,
          not_not] at hx
        rw [belowRoot, hx, ite_self]
  · intro h
    obtain ⟨known, hKnown⟩ := rejectFrom_complete h parents.keys (Finset.mem_singleton_self root)
    rw [hKnown]
    rfl

end Rejecting

namespace Content

/-- The reachability walk; none while it has not come to an answer. -/
def resolvableLoop (c : Content) : Nat → ElementId → Option Bool
  | 0, _ => none
  | steps + 1, cur =>
    if cur = ROOT_ID then some true
    else if c.displacedContainer cur ≠ some false then some false
    else
      match c.parents[cur]? with
      | some parent => c.resolvableLoop steps parent
      | none => if c.ranged.contains cur then c.resolvableLoop steps ROOT_ID else some false

/-- The walk comes to an answer wherever the links end. -/
theorem resolvableLoop_isSome {c : Content} {n : Nat} {target : ElementId}
    (h : ascend (parentIn c.parents) n target = none) :
    (c.resolvableLoop (n + 1) target).isSome := by
  have hRoot : ∀ steps, (c.resolvableLoop (steps + 1) ROOT_ID).isSome := fun steps => by
    unfold resolvableLoop
    rw [if_pos rfl]
    rfl
  induction n generalizing target with
  | zero => cases h
  | succ n ih =>
    unfold resolvableLoop
    split
    · rfl
    split
    · rfl
    cases hParent : c.parents[target]? with
    | none =>
      dsimp only
      split
      · exact hRoot n
      · rfl
    | some parent =>
      rw [ascend_succ, parentIn, hParent, Option.bind_some] at h
      exact ih h

/-- What a forest gives: no container is inside itself, every chain of links ends, the
decoder accepts the links and the walk up them comes to an answer. -/
structure ParentForest (c : Content) : Prop where
  acyclic : Acyclic (parentIn c.parents)
  ends : ∀ x, ∃ n, ascend (parentIn c.parents) n x = none
  accepted : rejectParentCycles c.parents ROOT_ID = .ok ()
  resolves : ∀ target, ∃ steps, (c.resolvableLoop steps target).isSome

theorem Rooted.parentForest {c : Content} (h : c.Rooted) : c.ParentForest where
  acyclic := h.acyclic_parents
  ends := h.ascends
  accepted := rejectParentCycles_iff.mpr <| h.acyclic_parents.mono fun x y hxy => by
    unfold belowRoot at hxy
    split at hxy
    · cases hxy
    · exact hxy
  resolves target :=
    have ⟨n, hn⟩ := h.ascends target
    ⟨n + 1, resolvableLoop_isSome hn⟩

end Content

end CrdtSync
