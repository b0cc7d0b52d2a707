import CrdtSync.Core.ParentGrowth

/-!
# The parent forest under births, moves and reveals

What one mutation has to meet so that the parent links stay a forest, and that
every mutation that meets it keeps them one. Births, evictions and moves leave the
links of placed nodes behind the move log; the fold that follows catches them up,
but only where the log still gives a node a parent.
-/

namespace CrdtSync

open Lib ElementId
open Std (ExtTreeMap)

namespace Content

variable {c c' : Content}

/-- A node without a placement follows the log before any fold. -/
def FollowsUnplaced (c : Content) (but : ElementId) : Prop :=
  ∀ x : ElementId, x.inSequence → x ≠ but → c.placesOf x = [] → c.Follows x

section Folding

theorem sameTree_foldl_setAway (away : List (Placement × Bool)) (c : Content) :
    SameTree c (away.foldl (fun c (p, b) => c.setAway p b) c) := by
  induction away generalizing c with
  | nil => exact SameTree.refl c
  | cons pb away ih => exact (SameTree.modify_lists c pb.1.list _).trans (ih _)

theorem refoldMoves_shape (c : Content) : SameShape c c.refoldMoves := by
  have hAway := sameTree_foldl_setAway
    (c.governed.flatMap fun row => c.suppressions row.2.1 row.2.2) c
  exact { hAway.toSameShape with }

theorem mem_governed {node effList : ElementId} {places : List Placement} :
    (node, effList, places) ∈ c.governed ↔
      c.placements[node]? = some places ∧ c.effectiveList node = some effList := by
  unfold governed
  simp only [List.mem_filterMap, Option.map_eq_some_iff, Prod.exists, Prod.mk.injEq]
  constructor
  · rintro ⟨node', places', hMem, effList', hEff, rfl, rfl, rfl⟩
    exact ⟨mem_toList_iff.mp hMem, hEff⟩
  · rintro ⟨hPlaces, hEff⟩
    exact ⟨node, places, mem_toList_iff.mpr hPlaces, effList, hEff, rfl, rfl, rfl⟩

theorem refoldMoves_parents (c : Content) : c.refoldMoves.parents =
    linkParents c.parents (c.governed.map fun (node, effList, _) => (node, effList)) := by
  rw [linkParents, List.foldl_map]
  rfl

theorem parents_refoldMoves_of_governed {node effList : ElementId} (hPlaced : node ∈ c.placements)
    (hEff : c.effectiveList node = some effList) :
    c.refoldMoves.parents[node]? = some effList := by
  obtain ⟨places, hPlaces⟩ := Option.isSome_iff_exists.mp
    (ExtTreeMap.mem_iff_isSome_getElem?.mp hPlaced)
  rw [refoldMoves_parents, ← hEff]
  refine linkParents_of_mem ?_ ⟨(node, effList), ?_, rfl⟩ _
  · rintro l hl
    obtain ⟨⟨n, e, p⟩, hMem, rfl⟩ := List.mem_map.mp hl
    exact (mem_governed.mp hMem).2
  · exact List.mem_map.mpr ⟨(node, effList, places), mem_governed.mpr ⟨hPlaces, hEff⟩, rfl⟩

theorem parents_refoldMoves_of_not {node : ElementId}
    (h : node ∉ c.placements ∨ c.effectiveList node = none) :
    c.refoldMoves.parents[node]? = c.parents[node]? := by
  rw [refoldMoves_parents]
  refine linkParents_of_not_mem ?_ _
  rintro l hl rfl
  obtain ⟨⟨n, e, p⟩, hMem, rfl⟩ := List.mem_map.mp hl
  obtain ⟨hPlaces, hEff⟩ := mem_governed.mp hMem
  rcases h with hNot | hNone
  · exact hNot (ExtTreeMap.mem_iff_isSome_getElem?.mpr (by rw [hPlaces]; rfl))
  · rw [hEff] at hNone
    cases hNone

/-- The nodes a fold passes over have no recorded parent. -/
def Governs (c : Content) : Prop :=
  ∀ x : ElementId, x.inSequence → c.placesOf x ≠ [] → c.parents[x]? ≠ none →
    c.moves.parentOf x ≠ none

theorem mem_placements_of_placesOf {x : ElementId} (h : c.placesOf x ≠ []) : x ∈ c.placements := by
  rw [ExtTreeMap.mem_iff_isSome_getElem?, Option.isSome_iff_ne_none]
  intro hNone
  exact h (by rw [placesOf, hNone]; rfl)

/-- The fold brings every link up to date. -/
theorem Linked.refoldMoves (h : c.Linked) (hUnplaced : ∀ x : ElementId, x.inSequence →
    c.placesOf x = [] → c.Follows x) (hGoverns : c.Governs)
    (hPlaces : ∀ x ∈ c.placements, c.placesOf x ≠ []) : c.refoldMoves.Rooted := by
  have hShape := refoldMoves_shape c
  refine ⟨h.reparent hShape fun x hx => parents_refoldMoves_of_not (.inl fun hMem => ?_), ?_⟩
  · rw [(h.movable x (.inl (hPlaces x hMem))).1] at hx
    cases hx
  · intro x hSeq p hp
    rw [hShape.moves]
    by_cases hMem : x ∈ c.placements
    · cases hOwner : c.moves.parentOf x with
      | none =>
        rw [parents_refoldMoves_of_not (.inr (by rw [effectiveList, hOwner]; rfl))] at hp
        exact absurd hOwner (hGoverns x hSeq (hPlaces x hMem) (by rw [hp]; simp))
      | some owner =>
        have hEff : c.effectiveList x = some (XmlElement.childrenId owner) := by
          rw [effectiveList, hOwner]
          rfl
        rw [parents_refoldMoves_of_governed hMem hEff] at hp
        obtain rfl := Option.some.inj hp
        exact ⟨rfl, rfl⟩
    · rw [parents_refoldMoves_of_not (.inl hMem)] at hp
      refine hUnplaced x hSeq ?_ p hp
      by_contra hNe
      exact hMem (mem_placements_of_placesOf hNe)

end Folding

section Claiming

theorem placesOf_pushPlacement (c : Content) (node x : ElementId) (p : Placement) :
    (c.pushPlacement node p).placesOf x = if x = node then c.placesOf node ++ [p] else c.placesOf x := by
  unfold placesOf pushPlacement
  dsimp only
  rw [getElem?_insert_ite]
  by_cases hx : x = node
  · rw [if_pos hx, if_pos hx]
    rfl
  · rw [if_neg hx, if_neg hx]

/-- Every recorded list of placements has one. -/
def PlacesRecorded (c : Content) : Prop := ∀ x ∈ c.placements, c.placesOf x ≠ []

theorem PlacesRecorded.pushPlacement (h : c.PlacesRecorded) (node : ElementId) (p : Placement) :
    (c.pushPlacement node p).PlacesRecorded := by
  intro x hx
  rw [placesOf_pushPlacement]
  by_cases hEq : x = node
  · rw [if_pos hEq]
    simp
  · rw [if_neg hEq]
    refine h x ?_
    have hx' : x ∈ c.placements.insert node ((c.placements[node]?.getD []) ++ [p]) := hx
    rw [ExtTreeMap.mem_insert, Std.compare_eq_iff_eq] at hx'
    exact hx'.resolve_left fun hEq' => hEq hEq'.symm

variable [IdBytes]

/-- The move log once a claim on a position has been settled, if the claim takes the
position: a claim that takes it from another node withdraws the move that put the
other there. -/
def settledMoves (c : Content) (list : ElementId) (stamp : Stamp) (node : ElementId) :
    Option TreeMoves :=
  match c.placementIndex[placementKey list stamp]? with
  | none => some c.moves
  | some held =>
    if held = node then some c.moves
    else if !outranks list stamp node held then none
    else match c.parents[list]? with
      | some owner => some (c.moves.remove stamp held owner)
      | none => some c.moves

/-- What evicting a node from a position leaves. -/
structure Evicts (list : ElementId) (stamp : Stamp) (held owner : ElementId) (c c' : Content) :
    Prop where
  moves : c'.moves = c.moves.remove stamp held owner
  placesOf : ∀ x, c'.placesOf x =
    if x = held then (c.placesOf held).filter fun p => !(p.list = list && p.stamp = stamp)
    else c.placesOf x
  recorded : c'.PlacesRecorded
  parents : ∀ x, x ≠ held ∨ c'.placesOf held ≠ [] → c'.parents[x]? = c.parents[x]?
  parentsHeld : c'.placesOf held = [] →
    c'.parents[held]? = (c'.moves.parentOf held).map XmlElement.childrenId
  pending : ∀ x ∈ c'.revealedPending, x = held ∨ x ∈ c.revealedPending
  placementIndex : c'.placementIndex = c.placementIndex
  lists : c'.lists = c.lists
  maps : c'.maps = c.maps
  ranged : c'.ranged = c.ranged
  held : ∀ x, c'.Held x ↔ c.Held x

omit [IdBytes] in
theorem evictPlacement_spec (hRecorded : c.PlacesRecorded) {list held owner : ElementId}
    {stamp : Stamp} (hOwner : c.parents[list]? = some owner) (hPlaced : held ∈ c.placements) :
    Evicts list stamp held owner c (c.evictPlacement list stamp held) := by
  obtain ⟨places, hPlaces⟩ := Option.isSome_iff_exists.mp
    (ExtTreeMap.mem_iff_isSome_getElem?.mp hPlaced)
  have hOld : c.placesOf held = places := by
    rw [placesOf, hPlaces]
    rfl
  unfold evictPlacement
  simp only [hOwner, hPlaces]
  generalize hRest : places.filter (fun p => !(p.list = list && p.stamp = stamp)) = rest
  have hMem : ∀ x, x ∈ c.placements.insert held rest → x = held ∨ x ∈ c.placements := by
    intro x hx
    rw [ExtTreeMap.mem_insert, Std.compare_eq_iff_eq] at hx
    exact hx.imp_left Eq.symm
  cases rest with
  | cons p rest =>
    rw [if_pos (by simp)]
    have hPlacesOf : ∀ x, (c.placements.insert held (p :: rest))[x]?.getD [] =
        if x = held then p :: rest else c.placesOf x := by
      intro x
      rw [getElem?_insert_ite]
      by_cases hx : x = held
      · rw [if_pos hx, if_pos hx]
        rfl
      · rw [if_neg hx, if_neg hx]
        rfl
    constructor
    · rfl
    · intro x
      rw [hOld, hRest]
      exact hPlacesOf x
    · intro x hx
      refine ne_of_eq_of_ne (hPlacesOf x) ?_
      by_cases hEq : x = held
      · rw [if_pos hEq]
        exact List.cons_ne_nil p rest
      · rw [if_neg hEq]
        exact hRecorded x ((hMem x hx).resolve_left hEq)
    · intros
      rfl
    · intro hNone
      refine absurd hNone (ne_of_eq_of_ne (hPlacesOf held) ?_)
      rw [if_pos rfl]
      exact List.cons_ne_nil p rest
    · exact fun x hx => .inr hx
    · rfl
    · rfl
    · rfl
    · rfl
    · exact fun x => Iff.rfl
  | nil =>
    rw [if_neg (by simp)]
    have hPlacesOf : ∀ x, (c.placements.erase held)[x]?.getD [] =
        if x = held then [] else c.placesOf x := by
      intro x
      rw [getElem?_erase_ite]
      by_cases hx : x = held
      · rw [if_pos hx, if_pos hx]
        rfl
      · rw [if_neg hx, if_neg hx]
        rfl
    have hEmpty : (c.placements.erase held)[held]?.getD [] = [] := by
      rw [hPlacesOf, if_pos rfl]
    constructor
    · rfl
    · intro x
      rw [hOld, hRest]
      exact hPlacesOf x
    · intro x hx
      have hx' : x ∈ c.placements.erase held := hx
      rw [ExtTreeMap.mem_erase, ne_eq, Std.compare_eq_iff_eq] at hx'
      refine ne_of_eq_of_ne (hPlacesOf x) ?_
      rw [if_neg fun hEq => hx'.1 hEq.symm]
      exact hRecorded x hx'.2
    · rintro x (hNe | hSome)
      · dsimp only
        split
        · rw [getElem?_insert_ite, if_neg hNe]
        · rw [getElem?_erase_ite, if_neg hNe]
      · exact absurd hEmpty hSome
    · intro _
      dsimp only
      split
      · rename_i owner' hParent
        rw [getElem?_insert_ite, if_pos rfl, hParent]
        rfl
      · rename_i hParent
        rw [getElem?_erase_ite, if_pos rfl, hParent]
        rfl
    · exact fun x hx => Finset.mem_insert.mp hx
    · rfl
    · rfl
    · rfl
    · rfl
    · exact fun x => Iff.rfl

/-- A position taken by a new claimant: recorded, with the move that placed the node
it was taken from withdrawn. -/
structure Takes (list : ElementId) (stamp : Stamp) (node : ElementId) (c c' : Content) : Prop where
  linked : c'.Linked
  unplaced : c'.FollowsUnplaced node
  recorded : c'.PlacesRecorded
  placed : ⟨list, stamp⟩ ∈ c'.placesOf node
  settled : c.settledMoves list stamp node = some c'.moves
  base : c'.moves.base = c.moves.base
  entries : ∀ e ∈ c'.moves.entries, e ∈ c.moves.entries
  held : ∀ x, c'.Held x ↔ c.Held x
  lists : ∀ x, x ∈ c'.lists ↔ x ∈ c.lists
  parents : ∀ x, c'.placesOf x ≠ [] → c'.parents[x]? ≠ none → c.parents[x]? ≠ none
  free : c.placementIndex[placementKey list stamp]? = none →
    c'.parents = c.parents ∧ c'.moves = c.moves

variable {list node held owner : ElementId} {stamp : Stamp}

theorem Takes.same (h : Takes list stamp node c c') {c'' : Content} (hSame : SameTree c' c'') :
    Takes list stamp node c c'' where
  linked := h.linked.reparent hSame.toSameShape fun x _ => by rw [hSame.parents]
  unplaced x hx hNe hNone :=
    hSame.follows (h.unplaced x hx hNe (by rw [← hSame.placesOf]; exact hNone))
  recorded x hx := by
    rw [hSame.placesOf]
    exact h.recorded x (by rw [← hSame.placements]; exact hx)
  placed := by
    rw [hSame.placesOf]
    exact h.placed
  settled := by
    rw [hSame.moves]
    exact h.settled
  base := by
    rw [hSame.moves]
    exact h.base
  entries e he := h.entries e (by rw [← hSame.moves]; exact he)
  held x := (hSame.held x).trans (h.held x)
  lists x := (hSame.lists x).trans (h.lists x)
  parents x hx hp := h.parents x (by rw [← hSame.placesOf]; exact hx) (by rw [← hSame.parents]; exact hp)
  free hNone := by
    rw [hSame.parents, hSame.moves]
    exact h.free hNone

omit [IdBytes] in
theorem mem_placesOf_push (c : Content) (node : ElementId) (p : Placement) :
    p ∈ (c.pushPlacement node p).placesOf node := by
  rw [placesOf_pushPlacement, if_pos rfl]
  exact List.mem_append_right _ List.mem_cons_self

omit [IdBytes] in
theorem placesOf_push_sub (c : Content) (node x : ElementId) (p : Placement) {q : Placement}
    (hq : q ∈ c.placesOf x) : q ∈ (c.pushPlacement node p).placesOf x := by
  rw [placesOf_pushPlacement]
  by_cases hx : x = node
  · rw [if_pos hx]
    exact List.mem_append_left _ (hx ▸ hq)
  · rwa [if_neg hx]

/-- A claim on a free position. -/
theorem takes_fresh (h : c.Linked) (hUnplaced : c.FollowsUnplaced node)
    (hRecorded : c.PlacesRecorded) (hSeq : node.inSequence) (hHeld : c.Held node)
    (hFree : c.placementIndex[placementKey list stamp]? = none) :
    Takes list stamp node c
      (pushPlacement
        { c with placementIndex := c.placementIndex.insert (placementKey list stamp) node }
        node ⟨list, stamp⟩) := by
  have hPlaces := placesOf_pushPlacement
    { c with placementIndex := c.placementIndex.insert (placementKey list stamp) node } node
  have hKeeps := fun x => placesOf_push_sub
    { c with placementIndex := c.placementIndex.insert (placementKey list stamp) node } node x
  constructor
  · refine ⟨h.replays, h.shaped, h.baseHeld, h.entryHeld, ?_, h.plainParent, h.listLinked,
      h.mapPlain, h.rangedScalar, h.heldLinked, ?_, ?_⟩
    · intro e he
      obtain ⟨p, hp, hRest⟩ := h.entryPlaced e he
      exact ⟨p, hKeeps e.child _ hp, hRest⟩
    · intro x hx
      by_cases hEq : x = node
      · rw [hEq]
        exact ⟨hSeq, hHeld⟩
      · rw [hPlaces, if_neg hEq] at hx
        exact h.movable x hx
    · intro list' stamp' node' hIn
      rw [pushPlacement, getElem?_insert_ite] at hIn
      split at hIn
      · rename_i hKey
        obtain rfl := Option.some.inj hIn
        obtain ⟨rfl, rfl⟩ := Prod.mk.inj (toLex.injective hKey)
        exact mem_placesOf_push ..
      · exact hKeeps node' _ (h.indexPlaced list' stamp' node' hIn)
  · intro x hx hNe hNone
    rw [hPlaces, if_neg hNe] at hNone
    exact hUnplaced x hx hNe hNone
  · exact PlacesRecorded.pushPlacement (c := { c with placementIndex := _ }) hRecorded node _
  · exact mem_placesOf_push ..
  · rw [settledMoves, hFree]
    rfl
  · rfl
  · exact fun e he => he
  · exact fun x => Iff.rfl
  · exact fun x => Iff.rfl
  · exact fun x _ hp => hp
  · exact fun _ => ⟨rfl, rfl⟩

theorem takes_evicted (h : c.Linked) (hUnplaced : c.FollowsUnplaced node)
    (hRecorded : c.PlacesRecorded) (hSeq : node.inSequence) (hHeld : c.Held node)
    (hList : list ∈ c.lists) (hIndex : c.placementIndex[placementKey list stamp]? = some held)
    (hNe : held ≠ node) (hOutranks : outranks list stamp node held = true) :
    Takes list stamp node c
      (pushPlacement
        { c.evictPlacement list stamp held with
          placementIndex :=
            (c.evictPlacement list stamp held).placementIndex.insert (placementKey list stamp) node }
        node ⟨list, stamp⟩) := by
  have hShape := (h.listLinked list hList).1
  obtain ⟨owner, hHome⟩ : ∃ owner, list.home = some owner := by
    cases list with
    | fromBytes => cases hShape
    | derive => exact ⟨_, rfl⟩
  have hOwner : c.parents[list]? = some owner := by
    rw [h.plainParent list (not_inSequence_of_isList hShape), (h.listLinked list hList).2, hHome]
  have hThere := h.indexPlaced list stamp held hIndex
  have hPlaced := mem_placements_of_placesOf (List.ne_nil_of_mem hThere)
  have hEvicts : Evicts list stamp held owner c (c.evictPlacement list stamp held) :=
    evictPlacement_spec hRecorded hOwner hPlaced
  generalize c.evictPlacement list stamp held = e at hEvicts
  obtain ⟨hReplays, hBase, hEntries⟩ := h.replays.remove ⟨stamp, held, owner⟩
  rw [← hEvicts.moves] at hReplays hBase hEntries
  have hPlaces := placesOf_pushPlacement
    { e with placementIndex := e.placementIndex.insert (placementKey list stamp) node } node
  have hPush := fun x => placesOf_push_sub
    { e with placementIndex := e.placementIndex.insert (placementKey list stamp) node } node x
  -- Only the position itself has left the evicted node.
  have hKeeps : ∀ x p, p ∈ c.placesOf x → (x = held → p ≠ ⟨list, stamp⟩) → p ∈ e.placesOf x := by
    intro x p hp hOther
    rw [hEvicts.placesOf]
    by_cases hx : x = held
    · rw [if_pos hx]
      refine List.mem_filter.mpr ⟨hx ▸ hp, ?_⟩
      have hpNe := hOther hx
      cases p
      rw [ne_eq, Placement.mk.injEq] at hpNe
      simp only [Bool.not_and, Bool.or_eq_true, Bool.not_eq_true', decide_eq_false_iff_not]
      tauto
    · rwa [if_neg hx]
  have hSub : ∀ x, e.placesOf x ≠ [] → c.placesOf x ≠ [] := by
    intro x hx hNone
    rw [hEvicts.placesOf] at hx
    by_cases hEq : x = held
    · rw [if_pos hEq, ← hEq, hNone] at hx
      exact hx rfl
    · rw [if_neg hEq] at hx
      exact hx hNone
  have hPlacedHeld := h.movable held (.inl (List.ne_nil_of_mem hThere))
  constructor
  · constructor
    · exact hReplays
    · intro x y hxy
      exact h.shaped x y (hBase ▸ hxy)
    · intro x y hxy
      have hOld := h.baseHeld x y (hBase ▸ hxy)
      exact hOld.imp (hEvicts.held x).mpr (hEvicts.held y).mpr
    · exact fun m hm => (hEvicts.held _).mpr (h.entryHeld m ((hEntries m).mp hm).1)
    · intro m hm
      obtain ⟨hOld, hOther⟩ := (hEntries m).mp hm
      obtain ⟨p, hp, hStamp, hParent⟩ := h.entryPlaced m hOld
      refine ⟨p, hPush _ _ (hKeeps _ p hp ?_), hStamp, hParent⟩
      rintro hChild rfl
      have hSame : owner = m.parent := Option.some.inj (hHome.symm.trans hParent)
      apply hOther
      cases m
      simp_all
    · intro x hx
      change e.parents[x]? = e.moves.base[x]?
      rw [hBase, hEvicts.parents x (.inl ?_)]
      · exact h.plainParent x hx
      · rintro rfl
        rw [hPlacedHeld.1] at hx
        cases hx
    · intro x hx
      have hOld := h.listLinked x (hEvicts.lists ▸ hx)
      exact ⟨hOld.1, (congrArg (·[x]?) hBase).trans hOld.2⟩
    · exact fun x hx => h.mapPlain x (hEvicts.maps ▸ hx)
    · exact fun x hx => h.rangedScalar x (hEvicts.ranged ▸ hx)
    · intro x hx hPlain
      have hOld := h.heldLinked x ((hEvicts.held x).mp hx) hPlain
      refine hOld.imp_right (Or.imp (fun hR => ?_) fun hB => ?_)
      · exact hEvicts.ranged.symm ▸ hR
      · exact (congrArg (·[x]?) hBase).trans_ne hB
    · intro x hx
      by_cases hEq : x = node
      · rw [hEq]
        exact ⟨hSeq, (hEvicts.held node).mpr hHeld⟩
      · rw [hPlaces, if_neg hEq] at hx
        have hOld : x.inSequence ∧ c.Held x := by
          rcases hx with hx | hx
          · exact h.movable x (.inl (hSub x hx))
          · rcases hEvicts.pending x hx with rfl | hx
            · exact hPlacedHeld
            · exact h.movable x (.inr hx)
        exact hOld.imp_right (hEvicts.held x).mpr
    · intro list' stamp' node' hIn
      rw [pushPlacement, getElem?_insert_ite] at hIn
      split at hIn
      · rename_i hKey
        obtain rfl := Option.some.inj hIn
        obtain ⟨rfl, rfl⟩ := Prod.mk.inj (toLex.injective hKey)
        exact mem_placesOf_push ..
      · rename_i hKey
        rw [hEvicts.placementIndex] at hIn
        refine hPush node' _ (hKeeps _ _ (h.indexPlaced list' stamp' node' hIn) fun _ hEq => ?_)
        obtain ⟨rfl, rfl⟩ := Placement.mk.inj hEq
        exact hKey rfl
  · intro x hx hxNode hNone
    rw [hPlaces, if_neg hxNode] at hNone
    intro p hp
    change e.parents[x]? = some p at hp
    change p.isList ∧ e.moves.parentOf x = p.home
    by_cases hxHeld : x = held
    · subst hxHeld
      rw [hEvicts.parentsHeld hNone] at hp
      obtain ⟨owner', hParent, rfl⟩ := Option.map_eq_some_iff.mp hp
      exact ⟨rfl, hParent⟩
    · have hNoneOld : c.placesOf x = [] := by
        have hEq := hEvicts.placesOf x
        rw [if_neg hxHeld] at hEq
        exact hEq ▸ hNone
      rw [hEvicts.parents x (.inl hxHeld)] at hp
      have hOldFollows := hUnplaced x hx hxNode hNoneOld p hp
      rw [h.parentOf_unplaced hNoneOld] at hOldFollows
      have hUnlogged : e.moves.parentOf x = e.moves.base[x]? := by
        refine hReplays.parentOf_unlogged fun m hm hChild => ?_
        obtain ⟨q, hq, -⟩ := h.entryPlaced m ((hEntries m).mp hm).1
        rw [hChild, hNoneOld] at hq
        cases hq
      rw [hUnlogged, hBase]
      exact hOldFollows
  · exact PlacesRecorded.pushPlacement (c := { e with placementIndex := _ }) hEvicts.recorded node _
  · exact mem_placesOf_push ..
  · rw [settledMoves, hIndex]
    simp only [hNe, if_false, hOutranks, Bool.not_true, Bool.false_eq_true, hOwner]
    exact congrArg some hEvicts.moves.symm
  · exact hBase
  · exact fun m hm => ((hEntries m).mp hm).1
  · exact hEvicts.held
  · intro x
    change x ∈ e.lists ↔ x ∈ c.lists
    rw [hEvicts.lists]
  · intro x hx hp
    change e.parents[x]? ≠ none at hp
    by_cases hxHeld : x = held
    · subst hxHeld
      rw [hPlaces, if_neg hNe] at hx
      rwa [hEvicts.parents x (.inr hx)] at hp
    · rwa [hEvicts.parents x (.inl hxHeld)] at hp
  · intro hNone
    rw [hIndex] at hNone
    cases hNone

/-- A claim on a position the node holds already. -/
theorem takes_joined (h : c.Linked) (hUnplaced : c.FollowsUnplaced node)
    (hRecorded : c.PlacesRecorded)
    (hIndex : c.placementIndex[placementKey list stamp]? = some node) :
    Takes list stamp node c c where
  linked := h
  unplaced := hUnplaced
  recorded := hRecorded
  placed := h.indexPlaced list stamp node hIndex
  settled := by
    rw [settledMoves, hIndex]
    exact if_pos rfl
  base := rfl
  entries _ he := he
  held _ := Iff.rfl
  lists _ := Iff.rfl
  parents _ _ hp := hp
  free _ := ⟨rfl, rfl⟩

theorem sameTree_seatClaim (c : Content) (claim : Claim) (list : ElementId) (stamp : Stamp)
    (element : Element) (anchor : Anchor) :
    SameTree c (c.seatClaim claim list stamp element anchor) := by
  cases claim with
  | refused => exact SameTree.refl c
  | fresh => exact SameTree.modify_lists ..
  | joined => exact SameTree.modify_lists ..
  | evicted => exact SameTree.modify_lists ..

omit [IdBytes] in
theorem SameTree.pushPlacement (h : SameTree c c') (node : ElementId) (p : Placement) :
    SameTree (c.pushPlacement node p) (c'.pushPlacement node p) :=
  ⟨{ h.toSameShape with
    placements := congrArg (fun places : Registry (List Placement) =>
      places.insert node ((places[node]?.getD []) ++ [p])) h.placements }, h.parents⟩

/-- The record a settled claim leaves. -/
def placeClaim (c : Content) (claim : Claim) (node : ElementId) (p : Placement) : Content :=
  if claim = .joined then c else c.pushPlacement node p

/-- A claim is refused exactly when it settles nothing; otherwise it takes the position. -/
theorem claimPlacement_takes (h : c.Linked) (hUnplaced : c.FollowsUnplaced node)
    (hRecorded : c.PlacesRecorded) (hSeq : node.inSequence) (hHeld : c.Held node)
    (hList : list ∈ c.lists) (element : Element) (anchor : Anchor) :
    ((c.claimPlacement list stamp node).1 = .refused ∧ (c.claimPlacement list stamp node).2 = c ∧
      c.settledMoves list stamp node = none ∧
      c.placementIndex[placementKey list stamp]? ≠ none) ∨
    ((c.claimPlacement list stamp node).1 ≠ .refused ∧
      ((c.claimPlacement list stamp node).1 = .fresh ↔
        c.placementIndex[placementKey list stamp]? = none) ∧
      Takes list stamp node c
        (((c.claimPlacement list stamp node).2.seatClaim (c.claimPlacement list stamp node).1 list
          stamp element anchor).placeClaim (c.claimPlacement list stamp node).1 node
          ⟨list, stamp⟩)) := by
  have hSeat := fun claim (c : Content) => sameTree_seatClaim c claim list stamp element anchor
  cases hIndex : c.placementIndex[placementKey list stamp]? with
  | none =>
    have hClaim : c.claimPlacement list stamp node = (.fresh,
        { c with placementIndex := c.placementIndex.insert (placementKey list stamp) node }) := by
      simp only [claimPlacement, hIndex]
    rw [hClaim]
    refine .inr ⟨by simp, by simp, ?_⟩
    exact (takes_fresh h hUnplaced hRecorded hSeq hHeld hIndex).same
      ((hSeat .fresh _).pushPlacement node _)
  | some held =>
    by_cases hNode : held = node
    · subst hNode
      have hClaim : c.claimPlacement list stamp held = (.joined, c) := by
        simp only [claimPlacement, hIndex, if_true]
      rw [hClaim]
      exact .inr ⟨by simp, by simp, (takes_joined h hUnplaced hRecorded hIndex).same (hSeat .joined c)⟩
    · cases hOutranks : outranks list stamp node held with
      | false =>
        have hClaim : c.claimPlacement list stamp node = (.refused, c) := by
          simp only [claimPlacement, hIndex, hNode, if_false, hOutranks, Bool.not_false, if_true]
        rw [hClaim]
        refine .inl ⟨rfl, rfl, ?_, by simp⟩
        simp only [settledMoves, hIndex, hNode, if_false, hOutranks, Bool.not_false, if_true]
      | true =>
        have hClaim : c.claimPlacement list stamp node = (.evicted,
            { c.evictPlacement list stamp held with
              placementIndex := (c.evictPlacement list stamp held).placementIndex.insert
                (placementKey list stamp) node }) := by
          simp only [claimPlacement, hIndex, hNode, if_false, hOutranks, Bool.not_true,
            Bool.false_eq_true]
        rw [hClaim]
        refine .inr ⟨by simp, by simp, ?_⟩
        exact (takes_evicted h hUnplaced hRecorded hSeq hHeld hList hIndex hNode hOutranks).same
          ((hSeat .evicted _).pushPlacement node _)

end Claiming

end Content

end CrdtSync
