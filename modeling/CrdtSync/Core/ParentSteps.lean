import CrdtSync.Core.ParentForest

/-!
# One mutation keeps the parent forest

The condition a mutation has to meet, read off the replica before it, and the step
lemma: a mutation that meets it takes a rooted replica to a rooted one.
-/

namespace CrdtSync

open Lib ElementId
open Std (ExtTreeMap)

namespace Content

variable {c c' : Content}

/-- A rooted replica whose recorded lists of placements are not empty. -/
structure Forest (c : Content) : Prop extends Rooted c where
  recorded : c.PlacesRecorded

section Condition

variable [IdBytes]

/-- Whether a move log leaves no recorded parent of a sequence child behind. -/
def keepsParents (c : Content) (m : TreeMoves) : Bool :=
  c.parents.keys.all fun x => !x.inSequence || (m.parentOf x).isSome

/-- Whether a birth finds its child not materialised, or materialised by a birth and
still under the list it is born into. -/
def bornInPlace (c : Content) (list child : ElementId) : Bool :=
  (c.displacedContainer child).isNone ||
    c.moves.base.contains child && c.parents[child]? == some list

/-- Whether a mutation meets a replica it leaves a forest: a reveal names a child of a
sequence or a node already there; a birth finds its child not materialised, or born
before and either still in place or about to be folded; and a fold finds no recorded
parent that the move log no longer gives. -/
def keepsForest (c : Content) (target : ElementId) (kind : OpKind) (stamp : Stamp) : Bool :=
  match kind with
  | .xmlReveal node _ => (c.nodeElement node).isSome || node.inSequence
  | .xmlInsertChild tag _ =>
    let child := xmlChildId target stamp (childKind tag)
    let shell := c.register child (childContainer tag)
    !c.lists.contains target ||
      match shell.settledMoves target stamp child with
      | none => c.bornInPlace target child
      | some m =>
        if (c.placementIndex[placementKey target stamp]?).isNone then c.bornInPlace target child
        else ((c.displacedContainer child).isNone || c.moves.base.contains child) &&
          shell.keepsParents m
  | .xmlMove node _ =>
    !c.isMovable node || !c.lists.contains target ||
      match c.parents[target]?, c.settledMoves target stamp node with
      | some owner, some m => c.keepsParents (m.apply stamp node owner)
      | _, _ => true
  | _ => true
where
  childKind : Option Bytes → ElementKind
    | some _ => .xmlElement
    | none => .text
  childContainer : Option Bytes → Container
    | some tag => .xmlElement tag
    | none => .text

end Condition

section Edges

/-- Nodes that await a place may change while they are materialised sequence children. -/
theorem Linked.withPending (h : c.Linked) (pending : Finset ElementId)
    (hPending : ∀ x ∈ pending, x ∈ c.revealedPending ∨ x.inSequence ∧ c.Held x) :
    ({ c with revealedPending := pending } : Content).Linked :=
  { h with
    movable := fun x hx => by
      rcases hx with hPlaced | hIn
      · exact h.movable x (.inl hPlaced)
      · exact (hPending x hIn).elim (fun hOld => h.movable x (.inr hOld)) id }

theorem Linked.applyMove (h : c.Linked) {list node owner : ElementId} {stamp : Stamp}
    (hHome : list.home = some owner) (hOwner : c.Held owner) (hPlaced : ⟨list, stamp⟩ ∈ c.placesOf node) :
    ({ c with moves := c.moves.apply stamp node owner } : Content).Linked ∧
      (c.moves.apply stamp node owner).base = c.moves.base ∧
      ∀ x, x ≠ node → c.placesOf x = [] →
        (c.moves.apply stamp node owner).parentOf x = c.moves.parentOf x := by
  by_cases hDup : ∃ other ∈ c.moves.entries, other.stamp = stamp
  · rw [h.replays.apply_held node owner hDup]
    exact ⟨h, rfl, fun _ _ _ => rfl⟩
  · have hFresh : ∀ other ∈ c.moves.entries, other.stamp ≠ (⟨stamp, node, owner⟩ : Move).stamp :=
      fun other hOther hEq => hDup ⟨other, hOther, hEq⟩
    obtain ⟨hReplays, hBase, hEntries⟩ := h.replays.apply_fresh hFresh
    refine ⟨?_, hBase, fun x hx hNone => ?_⟩
    · refine { h with
        replays := hReplays
        shaped := fun x y hxy => h.shaped x y (hBase ▸ hxy)
        baseHeld := fun x y hxy => h.baseHeld x y (hBase ▸ hxy)
        entryHeld := fun e he => ?_
        entryPlaced := fun e he => ?_
        plainParent := fun x hx => (h.plainParent x hx).trans (congrArg (·[x]?) hBase.symm)
        listLinked := fun x hx => (h.listLinked x hx).imp_right (congrArg (·[x]?) hBase).trans
        heldLinked := fun x hx hPlain => (h.heldLinked x hx hPlain).imp_right
          (Or.imp_right (congrArg (·[x]?) hBase).trans_ne) }
      · rcases (hEntries e).mp he with rfl | hOld
        · exact hOwner
        · exact h.entryHeld e hOld
      · rcases (hEntries e).mp he with rfl | hOld
        · exact ⟨_, hPlaced, rfl, hHome⟩
        · exact h.entryPlaced e hOld
    · rw [h.parentOf_unplaced hNone, ← hBase]
      refine hReplays.parentOf_unlogged fun e he hChild => ?_
      rcases (hEntries e).mp he with rfl | hOld
      · exact hx hChild.symm
      · obtain ⟨p, hp, -⟩ := h.entryPlaced e hOld
        rw [hChild, hNone] at hp
        cases hp

/-- Recording where a sequence child was created, before any move could name it. -/
theorem Linked.setBase (h : c.Linked) {K : ElementId → Prop} {child owner : ElementId}
    (hK : TreeMoves.Encloses c.moves.base K c.moves.entries)
    (hFresh : c.moves.base[child]? ≠ none ∨ ¬K child) (hSeq : child.inSequence)
    (hShape : child.owner = some owner) (hChild : c.Held child) (hOwner : c.Held owner) :
    ({ c with moves := c.moves.setBase child owner } : Content).Linked := by
  have hShaped := h.shaped.setBase hShape
  have hOther : ∀ x : ElementId, x.inSequence = false →
      (c.moves.setBase child owner).base[x]? = c.moves.base[x]? := by
    intro x hx
    rw [TreeMoves.setBase_base, if_neg]
    rintro rfl
    rw [hSeq] at hx
    cases hx
  refine { h with
    replays := h.replays.setBase hK hFresh h.shaped.acyclic hShaped.acyclic
    shaped := hShaped
    baseHeld := fun x y hxy => ?_
    entryHeld := fun e he => h.entryHeld e (by rwa [TreeMoves.setBase_entries] at he)
    entryPlaced := fun e he => h.entryPlaced e (by rwa [TreeMoves.setBase_entries] at he)
    plainParent := fun x hx => (h.plainParent x hx).trans (hOther x hx).symm
    listLinked := fun x hx => (h.listLinked x hx).imp_right
      (hOther x (not_inSequence_of_isList (h.listLinked x hx).1)).trans
    heldLinked := fun x hx hPlain => (h.heldLinked x hx hPlain).imp_right
      (Or.imp_right (hOther x hPlain).trans_ne) }
  by_cases hx : x = child
  · subst hx
    have hEq := hShaped x y hxy
    rw [hShape] at hEq
    obtain rfl := Option.some.inj hEq
    exact ⟨hChild, hOwner⟩
  · rw [TreeMoves.setBase_base, if_neg hx] at hxy
    exact h.baseHeld x y hxy

theorem parentOf_setBase_of_ne {m : TreeMoves} {child owner x : ElementId} (hx : x ≠ child) :
    (m.setBase child owner).parentOf x = m.parentOf x := by
  unfold TreeMoves.parentOf
  rw [TreeMoves.setBase_tree, TreeMoves.setBase_base, if_neg hx]

/-- Where the log had a parent for the child already, the link changes nothing. -/
theorem parentOf_setBase_of_base {m : TreeMoves} {child owner : ElementId}
    (hBase : m.base[child]? ≠ none) : (m.setBase child owner).parentOf child = m.parentOf child := by
  obtain ⟨p, hp⟩ := Option.ne_none_iff_exists'.mp hBase
  unfold TreeMoves.parentOf
  rw [TreeMoves.setBase_tree, TreeMoves.setBase_base, if_pos rfl, hp]
  rfl

end Edges

namespace Forest

theorem same (h : c.Forest) (hSame : SameTree c c') : c'.Forest :=
  ⟨h.toRooted.same hSame, fun x hx => by
    rw [hSame.placesOf]
    exact h.recorded x (by rw [← hSame.placements]; exact hx)⟩

theorem grow {links : List (ElementId × ElementId)} (h : c.Forest) (hGrows : Grows links c c') :
    c'.Forest :=
  ⟨hGrows.rooted h.toRooted, fun x hx => by
    rw [hGrows.placesOf]
    exact h.recorded x (by rw [← hGrows.placements]; exact hx)⟩

theorem exists_owner (h : c.Linked) {list : ElementId} (hList : list ∈ c.lists) :
    ∃ owner, list.home = some owner ∧ c.parents[list]? = some owner ∧ c.Held owner := by
  have hShape := (h.listLinked list hList).1
  obtain ⟨owner, hHome⟩ : ∃ owner, list.home = some owner := by
    cases list with
    | fromBytes => cases hShape
    | derive => exact ⟨_, rfl⟩
  have hOwner : c.parents[list]? = some owner := by
    rw [h.plainParent list (not_inSequence_of_isList hShape), (h.listLinked list hList).2, hHome]
  exact ⟨owner, hHome, hOwner, (h.home_of_parent hList hOwner).2⟩

theorem recorded_refoldMoves (h : c.PlacesRecorded) : c.refoldMoves.PlacesRecorded := by
  have hShape := refoldMoves_shape c
  intro x hx
  rw [hShape.placesOf]
  exact h x (by rw [← hShape.placements]; exact hx)

theorem follows_unplaced (h : c.Rooted) (but : ElementId) : c.FollowsUnplaced but :=
  fun x hx _ _ => h.follows x hx

/-- A delete changes no link the log does not give. -/
theorem refoldMoves (h : c.Forest) : c.refoldMoves.Forest := by
  refine ⟨h.toLinked.refoldMoves (fun x hx _ => h.follows x hx) ?_ h.recorded,
    recorded_refoldMoves h.recorded⟩
  intro x hx _ hParent
  obtain ⟨p, hp⟩ := Option.ne_none_iff_exists'.mp hParent
  obtain ⟨hList, hHome⟩ := h.follows x hx p hp
  rw [hHome]
  cases p with
  | fromBytes => cases hList
  | derive => exact Option.some_ne_none _

theorem deleteFromList [IdBytes] (h : c.Forest) (list : ElementId) (id : Stamp) :
    (c.deleteFromList list id).Forest := by
  unfold Content.deleteFromList
  have hDelete : (c.onList list fun l => l.deleteId id).Forest := h.same (SameTree.modify_lists ..)
  dsimp only
  split
  · exact hDelete.refoldMoves
  · exact hDelete

theorem createContainer (h : c.Forest) (map : ElementId) (key : Bytes) (stamp : Stamp)
    (kind : Container) : (c.createContainer map key stamp kind).Forest := by
  refine ⟨h.toRooted.createContainer map key stamp kind, ?_⟩
  have hPlacements : (c.createContainer map key stamp kind).placements = c.placements := by
    unfold Content.createContainer
    by_cases hMap : (!c.maps.contains map) = true
    · rw [if_pos hMap]
    · rw [if_neg hMap]
      dsimp only
      have hRegister := (register_links c (containerId map key kind) kind).2.2.1
      split
      · exact hRegister
      · rename_i m hm
        have hIn : map ∈ (c.register (containerId map key kind) kind).maps :=
          ExtTreeMap.mem_iff_isSome_getElem?.mpr (by rw [hm]; rfl)
        exact ((SameTree.installAt _ hIn m key _ stamp).placements).trans hRegister
  intro x hx
  rw [hPlacements] at hx
  unfold placesOf
  rw [hPlacements]
  exact h.recorded x hx

theorem createRanged (h : c.Forest) (stamp : Stamp) (start stop : RangeAnchor) (payload : RangedInit)
    (name : Option Bytes) : (c.createRanged stamp start stop payload name).Forest := by
  unfold Content.createRanged
  dsimp only
  by_cases hHeld : c.ranged.contains (rangedId stamp) = true
  · rw [if_pos hHeld]
    exact h
  rw [if_neg hHeld]
  -- The range itself is no container with a link; it is held before its payload is linked to it.
  have hRange : ∀ e : RangedEntry,
      ({ c with ranged := c.ranged.insert (rangedId stamp) e } : Content).Forest := by
    intro e
    have hMem : ∀ x, x ∈ c.ranged.insert (rangedId stamp) e ↔ x = rangedId stamp ∨ x ∈ c.ranged := by
      intro x
      rw [ExtTreeMap.mem_insert, Std.compare_eq_iff_eq, eq_comm]
    suffices hGrows : Grows [] c { c with ranged := c.ranged.insert (rangedId stamp) e } from
      h.grow hGrows
    refine ⟨rfl, rfl, rfl, rfl, rfl, ?_, ?_, ?_, ?_, ?_, ?_, ?_, ?_, ?_⟩
    · exact fun l hl => absurd hl List.not_mem_nil
    · exact fun l hl => absurd hl List.not_mem_nil
    · intro x hx
      simp only [Held, hMem] at hx ⊢
      tauto
    · exact fun l hl => absurd hl List.not_mem_nil
    · intro x hx
      simp only [Held, hMem] at hx ⊢
      tauto
    · exact fun x hx => .inl hx
    · exact fun x hx => .inl hx
    · intro x hx
      rcases (hMem x).mp hx with rfl | hOld
      · rfl
      · exact h.rangedScalar x hOld
    · exact fun x hx => (hMem x).mpr (.inr hx)
  have hInstall : ∀ (kind : Container) (e : RangedEntry),
      (∀ tag, kind ≠ .xmlElement tag) →
      ({ (c.register (payloadId (rangedId stamp) kind.elementKind) kind).link
          (payloadId (rangedId stamp) kind.elementKind) (rangedId stamp) with
        ranged := c.ranged.insert (rangedId stamp) e } : Content).Forest := by
    intro kind e hPlainKind
    have hStart := hRange e
    have hIn : ({ c with ranged := c.ranged.insert (rangedId stamp) e } : Content).Held
        (rangedId stamp) := by
      simp only [Held]
      exact .inr (.inr (.inr (.inr (.inr ExtTreeMap.mem_insert_self))))
    have hId : (payloadId (rangedId stamp) kind.elementKind).owner = some (rangedId stamp) ∧
        (payloadId (rangedId stamp) kind.elementKind).inSequence = false ∧
        (payloadId (rangedId stamp) kind.elementKind).kind = some kind.elementKind := by
      cases kind with
      | xmlElement tag => exact absurd rfl (hPlainKind tag)
      | map => exact ⟨rfl, rfl, rfl⟩
      | list => exact ⟨rfl, rfl, rfl⟩
      | text => exact ⟨rfl, rfl, rfl⟩
      | xmlFragment => exact ⟨rfl, rfl, rfl⟩
    have hGrow := hStart.grow
      (grows_register_link hStart.toLinked hId.1 hId.2.1 hId.2.2 hIn)
    cases kind <;> exact hGrow
  cases payload with
  | scalar value => exact hRange _
  | composite kind =>
    cases kind with
    | map => exact hInstall .map _ (by simp)
    | list => exact hInstall .list _ (by simp)
    | text => exact hInstall .text _ (by simp)
    | scalar => exact hRange _
    | register => exact hRange _
    | counter => exact hRange _
    | xmlElement => exact hRange _
    | xmlFragment => exact hRange _

theorem applyReveal (h : c.Forest) {node : ElementId} (tag : Option Bytes)
    (hNode : ((c.nodeElement node).isSome || node.inSequence) = true) :
    (c.applyReveal node tag).Forest := by
  unfold Content.applyReveal
  by_cases hThere : (c.nodeElement node).isSome = true
  · rw [if_pos hThere]
    exact h
  rw [if_neg hThere]
  have hSeq : node.inSequence := by simpa [hThere] using hNode
  have hShell : ∀ kind : Container, kind ≠ .list → kind ≠ .map →
      ({ c.register node kind with
        revealedPending := insert node (c.register node kind).revealedPending } : Content).Forest := by
    intro kind hList hMap
    have hGrows := grows_register_child h.toLinked hSeq kind ⟨hList, hMap⟩
    have hGrown := h.grow hGrows
    refine ⟨⟨hGrown.toLinked.withPending _ fun x hx => ?_, hGrown.follows⟩, hGrown.recorded⟩
    rcases Finset.mem_insert.mp hx with rfl | hOld
    · exact .inr ⟨hSeq, (held_register c x kind x).mpr (.inr (.inl rfl))⟩
    · exact .inl hOld
  cases tag with
  | none => exact hShell .text (by simp) (by simp)
  | some t => exact hShell (.xmlElement t) (by simp) (by simp)

/-- A move whose fold finds every recorded parent in the log it leaves. -/
theorem applyMove [IdBytes] (h : c.Forest) {dest node : ElementId} {stamp : Stamp} (anchor : Anchor)
    (hKeeps : c.keepsForest dest (.xmlMove node anchor) stamp = true) :
    (c.applyMove dest node anchor stamp).Forest := by
  unfold Content.applyMove
  by_cases hGate : (!c.isMovable node || !c.lists.contains dest) = true
  · rw [if_pos hGate]
    exact h
  rw [if_neg hGate]
  simp only [Bool.or_eq_true, Bool.not_eq_true', not_or, Bool.not_eq_false] at hGate
  obtain ⟨hMovable, hDest⟩ := hGate
  have hNode : node.inSequence ∧ c.Held node := by
    refine h.movable node ?_
    simp only [isMovable, Bool.or_eq_true, decide_eq_true_eq] at hMovable
    exact hMovable.imp (fun hIn => h.recorded node (ExtTreeMap.contains_iff_mem.mp hIn)) id
  have hList : dest ∈ c.lists := ExtTreeMap.contains_iff_mem.mp hDest
  obtain ⟨owner, hHome, hOwner, hOwnerHeld⟩ := exists_owner h.toLinked hList
  rw [hOwner]
  cases hElement : c.nodeElement node with
  | none => exact h
  | some element =>
    dsimp only
    rcases claimPlacement_takes h.toLinked (follows_unplaced h.toRooted node) h.recorded hNode.1
        hNode.2 hList element anchor with ⟨hRefused, hSame, -⟩ | ⟨hTaken, -, hTakes⟩
    · rw [hRefused, hSame]
      exact h
    · have hFold : ∀ T : Content, Takes dest stamp node c T →
          ({ T with
            moves := T.moves.apply stamp node owner
            revealedPending := T.revealedPending.erase node } : Content).refoldMoves.Forest := by
        intro T hT
        obtain ⟨hLinked, hBase, hUnplaced⟩ := hT.linked.applyMove hHome
          ((hT.held owner).mpr hOwnerHeld) hT.placed
        refine ⟨(hLinked.withPending (T.revealedPending.erase node) fun x hx => ?_).refoldMoves
          ?_ ?_ ?_, recorded_refoldMoves hT.recorded⟩
        · exact .inl (Finset.mem_of_mem_erase hx)
        · intro x hx hNone p hp
          have hNe : x ≠ node := by
            rintro rfl
            exact List.ne_nil_of_mem hT.placed hNone
          have hOld := hT.unplaced x hx hNe hNone p hp
          exact ⟨hOld.1, (hUnplaced x hNe hNone).trans hOld.2⟩
        · intro x hx hPlaced hParent
          have hOldParent := hT.parents x hPlaced hParent
          simp only [keepsForest, hMovable, hDest, Bool.not_true, Bool.false_or, hOwner,
            hT.settled, keepsParents, List.all_eq_true, ExtTreeMap.mem_keys,
            ExtTreeMap.mem_iff_isSome_getElem?, Option.isSome_iff_ne_none] at hKeeps
          have hSome := hKeeps x hOldParent
          simpa [hx, Option.isSome_iff_ne_none] using hSome
        · exact hT.recorded
      generalize c.claimPlacement dest stamp node = settled at hTaken hTakes ⊢
      obtain ⟨claim, c₁⟩ := settled
      cases claim with
      | refused => exact absurd rfl hTaken
      | fresh => exact hFold _ hTakes
      | joined => exact hFold _ hTakes
      | evicted => exact hFold _ hTakes

end Forest

section Births

/-- A replica `c₁` that has materialised the child a birth into `list` derives, out
of `c`. -/
structure Bears (list child owner : ElementId) (c c₁ : Content) : Prop where
  forest : c₁.Forest
  encloses : TreeMoves.Encloses c₁.moves.base c.Held c₁.moves.entries
  inSequence : child.inSequence
  held : c₁.Held child
  listHeld : list ∈ c₁.lists
  listHome : list.home = some owner
  childOwner : child.owner = some owner
  ownerLink : c₁.parents[list]? = some owner
  ownerHeld : c₁.Held owner
  base : c₁.moves.base[child]? = c.moves.base[child]?
  parents : c₁.parents[child]? = c.parents[child]?
  placementIndex : c₁.placementIndex = c.placementIndex
  unborn : ¬c.Held child → c.moves.base[child]? = none ∧ ∀ e ∈ c₁.moves.entries, e.child ≠ child

theorem bears_register (h : c.Forest) {list : ElementId} {stamp : Stamp} {kind : ElementKind}
    {container : Container} (hList : list ∈ c.lists) (hKind : kind = .xmlElement ∨ kind = .text)
    (hContainer : container ≠ .list ∧ container ≠ .map) :
    ∃ owner, Bears list (xmlChildId list stamp kind) owner c
      (c.register (xmlChildId list stamp kind) container) := by
  have hShape := (h.listLinked list hList).1
  have hSeq : (xmlChildId list stamp kind).inSequence := by
    rwa [inSequence_xmlChildId list stamp kind hKind]
  have hGrows := grows_register_child h.toLinked hSeq container hContainer
  have hGrown := h.grow hGrows
  have hIn : list ∈ (c.register (xmlChildId list stamp kind) container).lists := by
    cases container <;>
      simp only [register, registerMap, registerList, link, mem_insertIfNew_iff] <;> simp [hList]
  obtain ⟨owner, hHome, hOwner, hOwnerHeld⟩ := Forest.exists_owner hGrown.toLinked hIn
  have hNot := hGrows.not_link_of_inSequence hSeq
  refine ⟨owner, hGrown, (hGrows.replays h.toLinked).2, hSeq,
    (held_register ..).mpr (.inr (.inl rfl)), hIn, hHome, ?_, hOwner, hOwnerHeld,
    hGrows.base_of_not_link hNot, ?_, hGrows.placementIndex, ?_⟩
  · rw [owner_xmlChildId list stamp kind hKind hShape, hHome]
  · rw [hGrows.parents, linkParents_of_not_mem fun l hl hEq => hNot ⟨l, hl, hEq⟩]
  · intro hNew
    constructor
    · by_contra hBase
      obtain ⟨p, hp⟩ := Option.ne_none_iff_exists'.mp hBase
      exact hNew (h.baseHeld _ p hp).1
    · intro e he hChild
      rw [hGrows.moves, TreeMoves.setBases_entries] at he
      obtain ⟨p, hp, -⟩ := h.entryPlaced e he
      exact hNew (hChild ▸ (h.movable e.child (.inl (List.ne_nil_of_mem hp))).2)

namespace Bears

variable {list child owner : ElementId} {c₁ X : Content} {stamp : Stamp}

theorem linked (h : Bears list child owner c c₁) :
    ({ c₁ with parents := c₁.parents.insert child list } : Content).Linked ∧
      ({ c₁ with parents := c₁.parents.insert child list } : Content).FollowsUnplaced child := by
  constructor
  · refine h.forest.reparent { SameShape.refl c₁ with } fun x hx => ?_
    rw [getElem?_insert_ite, if_neg]
    rintro rfl
    rw [h.inSequence] at hx
    cases hx
  · intro x hx hNe _ p hp
    rw [getElem?_insert_ite, if_neg hNe] at hp
    exact h.forest.follows x hx p hp

theorem settledMoves_eq [IdBytes] (h : Bears list child owner c c₁) :
    ({ c₁ with parents := c₁.parents.insert child list } : Content).settledMoves list stamp child =
      c₁.settledMoves list stamp child := by
  have hNe : list ≠ child := by
    rintro rfl
    have hSeq := h.inSequence
    rw [not_inSequence_of_isList (h.forest.listLinked list h.listHeld).1] at hSeq
    cases hSeq
  unfold settledMoves
  simp only [getElem?_insert_ite, if_neg hNe]

theorem fresh_base (h : Bears list child owner c c₁)
    (hBorn : c.displacedContainer child = none ∨ c.moves.base[child]? ≠ none) :
    c₁.moves.base[child]? ≠ none ∨ ¬c.Held child := by
  rcases hBorn with hNew | hBase
  · exact .inr (displacedContainer_eq_none.mp hNew)
  · exact .inl (by rwa [h.base])

/-- A birth that changes neither the log nor another link, and is not folded. -/
theorem unfolded (h : Bears list child owner c c₁) (hX : X.Linked) (hRecorded : X.PlacesRecorded)
    (hHeld : ∀ x, c₁.Held x → X.Held x) (hMoves : X.moves = c₁.moves)
    (hParents : X.parents = c₁.parents.insert child list)
    (hBorn : c.bornInPlace list child = true) :
    ({ X with moves := X.moves.setBase child owner } : Content).Forest := by
  simp only [bornInPlace, Bool.or_eq_true, Option.isNone_iff_eq_none, Bool.and_eq_true, beq_iff_eq,
    ExtTreeMap.contains_eq_isSome_getElem?, Option.isSome_iff_ne_none] at hBorn
  have hFresh := h.fresh_base (hBorn.imp id And.left)
  have hLinked := hX.setBase (hMoves ▸ h.encloses) (hMoves ▸ hFresh) h.inSequence h.childOwner
    (hHeld child h.held) (hHeld owner h.ownerHeld)
  refine ⟨⟨hLinked, fun x hx p hp => ?_⟩, hRecorded⟩
  rw [hParents, getElem?_insert_ite] at hp
  by_cases hEq : x = child
  · rw [if_pos hEq] at hp
    obtain rfl := Option.some.inj hp
    have hIsList := (h.forest.listLinked list h.listHeld).1
    refine ⟨hIsList, ?_⟩
    rw [hEq, h.listHome]
    change (X.moves.setBase child owner).parentOf child = some owner
    rw [hMoves]
    rcases hBorn with hNew | ⟨hBase, hPlace⟩
    · obtain ⟨hNone, hUnlogged⟩ := h.unborn (displacedContainer_eq_none.mp hNew)
      have hTree : c₁.moves.tree[child]? = none := by
        cases hTree : c₁.moves.tree[child]? with
        | none => rfl
        | some y =>
          obtain ⟨e, he, hChild, -⟩ := h.forest.replays.tree_logged hTree
          exact absurd hChild (hUnlogged e he)
      unfold TreeMoves.parentOf
      rw [TreeMoves.setBase_tree, hTree, TreeMoves.setBase_base, if_pos rfl, h.base, hNone]
      rfl
    · rw [parentOf_setBase_of_base (by rwa [h.base])]
      have hFollows := h.forest.follows child h.inSequence list (by rw [h.parents, hPlace])
      rw [hFollows.2, h.listHome]
  · rw [if_neg hEq] at hp
    have hFollows := h.forest.follows x hx p hp
    refine ⟨hFollows.1, ?_⟩
    rw [← hFollows.2]
    change (X.moves.setBase child owner).parentOf x = c₁.moves.parentOf x
    rw [parentOf_setBase_of_ne hEq, hMoves]

/-- A birth whose fold finds every recorded parent in the log it leaves. -/
theorem folded [IdBytes] (h : Bears list child owner c c₁)
    (hTakes : Takes list stamp child { c₁ with parents := c₁.parents.insert child list } X)
    (pending : Finset ElementId) (hPending : ∀ x ∈ pending, x ∈ X.revealedPending)
    (hBorn : c.displacedContainer child = none ∨ c.moves.base[child]? ≠ none)
    (hKeeps : ∀ m, c₁.settledMoves list stamp child = some m → c₁.keepsParents m = true) :
    ({ X with
      revealedPending := pending
      moves := X.moves.setBase child owner } : Content).refoldMoves.Forest := by
  have hHeld : ∀ x, c₁.Held x → X.Held x := fun x hx => (hTakes.held x).mpr hx
  have hEncloses : TreeMoves.Encloses X.moves.base c.Held X.moves.entries := by
    rw [hTakes.base]
    exact ⟨fun e he => h.encloses.logged e (hTakes.entries e he), h.encloses.linked⟩
  have hFresh : X.moves.base[child]? ≠ none ∨ ¬c.Held child := by
    rw [hTakes.base]
    exact h.fresh_base hBorn
  have hLinked := (hTakes.linked.withPending pending fun x hx => .inl (hPending x hx)).setBase
    hEncloses hFresh h.inSequence h.childOwner (hHeld child h.held) (hHeld owner h.ownerHeld)
  refine ⟨hLinked.refoldMoves ?_ ?_ hTakes.recorded, Forest.recorded_refoldMoves hTakes.recorded⟩
  · intro x hx hNone p hp
    have hNe : x ≠ child := by
      rintro rfl
      exact List.ne_nil_of_mem hTakes.placed hNone
    have hOld := hTakes.unplaced x hx hNe hNone p hp
    exact ⟨hOld.1, (parentOf_setBase_of_ne hNe).trans hOld.2⟩
  · intro x hx hPlaced hParent
    change (X.moves.setBase child owner).parentOf x ≠ none
    by_cases hEq : x = child
    · rw [hEq]
      unfold TreeMoves.parentOf
      rw [TreeMoves.setBase_base, if_pos rfl]
      simp
    · rw [parentOf_setBase_of_ne hEq]
      have hOldParent := hTakes.parents x hPlaced hParent
      rw [getElem?_insert_ite, if_neg hEq] at hOldParent
      have hAll := hKeeps X.moves (by rw [← h.settledMoves_eq]; exact hTakes.settled)
      simp only [keepsParents, List.all_eq_true, ExtTreeMap.mem_keys,
        ExtTreeMap.mem_iff_isSome_getElem?, Option.isSome_iff_ne_none] at hAll
      simpa [hx, Option.isSome_iff_ne_none] using hAll x hOldParent

end Bears

/-- Record where a child was created, once its list has an owner. -/
def linkBirth (c : Content) (list child : ElementId) : Content :=
  match c.parents[list]? with
  | some owner => { c with moves := c.moves.setBase child owner }
  | none => c

theorem linkBirth_eq {list child owner : ElementId} (h : c.parents[list]? = some owner) :
    c.linkBirth list child = { c with moves := c.moves.setBase child owner } := by
  rw [linkBirth, h]

/-- The clause of `keepsForest` for a birth whose container is registered. -/
def keepsBirth [IdBytes] (c shell : Content) (list child : ElementId) (stamp : Stamp) : Bool :=
  match shell.settledMoves list stamp child with
  | none => c.bornInPlace list child
  | some m =>
    if (c.placementIndex[placementKey list stamp]?).isNone then c.bornInPlace list child
    else ((c.displacedContainer child).isNone || c.moves.base.contains child) &&
      shell.keepsParents m

def settleBirth [IdBytes] (c : Content) (claim : Claim) (list child : ElementId) (kind : ElementKind)
    (anchor : Anchor) (stamp : Stamp) : Content :=
  let c := c.seatClaim claim list stamp (.handle kind child) anchor
  let c := match claim with
    | .refused =>
      if c.placements.contains child then c
      else { c with revealedPending := insert child c.revealedPending }
    | .joined => c
    | .fresh | .evicted =>
      { c.pushPlacement child ⟨list, stamp⟩ with
        revealedPending := c.revealedPending.erase child }
  let c := c.linkBirth list child
  match claim with
  | .joined | .evicted => c.refoldMoves
  | .fresh | .refused => c

theorem Forest.insertXmlChild [IdBytes] (h : c.Forest) {list : ElementId} {tag : Option Bytes}
    {stamp : Stamp} (anchor : Anchor)
    (hKeeps : c.keepsForest list (.xmlInsertChild tag anchor) stamp = true) :
    (c.insertXmlChild list tag anchor stamp).Forest := by
  unfold Content.insertXmlChild
  by_cases hGate : (!c.lists.contains list) = true
  · rw [if_pos hGate]
    exact h
  rw [if_neg hGate]
  simp only [Bool.not_eq_true', Bool.not_eq_false] at hGate
  have hList : list ∈ c.lists := ExtTreeMap.contains_iff_mem.mp hGate
  have hBirth : ∀ (kind : ElementKind) (container : Container), (kind = .xmlElement ∨ kind = .text) →
      (container ≠ .list ∧ container ≠ .map) → ∀ c₁ child,
      c.register child container = c₁ → xmlChildId list stamp kind = child →
      c.keepsBirth c₁ list child stamp = true →
      ∀ settled : Claim × Content,
      ({ c₁ with parents := c₁.parents.insert child list } : Content).claimPlacement list stamp child
        = settled →
      (settled.2.settleBirth settled.1 list child kind anchor stamp).Forest := by
    intro kind container hKind hContainer c₁ child hRegister hChild hGuard settled hSettled
    unfold keepsBirth at hGuard
    unfold settleBirth
    obtain ⟨owner, hBears⟩ := @bears_register c h list stamp kind container hList hKind hContainer
    rw [hChild, hRegister] at hBears
    obtain ⟨hLinked, hUnplaced⟩ := hBears.linked
    have hHeld : ({ c₁ with parents := c₁.parents.insert child list } : Content).Held child :=
      hBears.held
    have hListIn : list ∈ ({ c₁ with parents := c₁.parents.insert child list } : Content).lists :=
      hBears.listHeld
    have hClaims := @claimPlacement_takes _ _ _ _ stamp hLinked hUnplaced hBears.forest.recorded
      hBears.inSequence hHeld hListIn (.handle kind child) anchor
    have hNe : list ≠ child := by
      rintro rfl
      have hSeq := hBears.inSequence
      rw [not_inSequence_of_isList (hBears.forest.listLinked list hBears.listHeld).1] at hSeq
      cases hSeq
    have hOwner : (c₁.parents.insert child list)[list]? = some owner := by
      rw [getElem?_insert_ite, if_neg hNe, hBears.ownerLink]
    rw [hSettled, hBears.settledMoves_eq] at hClaims
    obtain ⟨claim, c₂⟩ := settled
    rcases hClaims with ⟨rfl, rfl, hNone, -⟩ | ⟨hTaken, hFresh, hTakes⟩
    · -- The child holds no position here: it keeps one it has elsewhere or awaits its first.
      rw [hNone] at hGuard
      dsimp only [seatClaim]
      by_cases hPlaced : c₁.placements.contains child = true
      · rw [if_pos hPlaced, linkBirth_eq hOwner]
        exact hBears.unfolded hLinked hBears.forest.recorded (fun x hx => hx) rfl rfl hGuard
      · rw [if_neg hPlaced, linkBirth_eq hOwner]
        refine hBears.unfolded (hLinked.withPending _ fun x hx => ?_) hBears.forest.recorded
          (fun x hx => hx) rfl rfl hGuard
        rcases Finset.mem_insert.mp hx with rfl | hOld
        · exact .inr ⟨hBears.inSequence, hBears.held⟩
        · exact .inl hOld
    · have hLink : ∀ T : Content, Takes list stamp child
          { c₁ with parents := c₁.parents.insert child list } T → T.parents[list]? = some owner := by
        intro T hT
        obtain ⟨owner', hHome, hParent, -⟩ :=
          Forest.exists_owner hT.linked ((hT.lists list).mpr hBears.listHeld)
        rw [hParent, ← hHome, hBears.listHome]
      have hIndex : c.placementIndex[placementKey list stamp]? = none ↔
          ({ c₁ with parents := c₁.parents.insert child list } : Content).placementIndex[
            placementKey list stamp]? = none := by rw [← hBears.placementIndex]
      have hSettledMoves := hTakes.settled
      rw [hBears.settledMoves_eq] at hSettledMoves
      rw [hSettledMoves] at hGuard
      -- A claim on a held position is folded, and the guard has looked at the log it leaves.
      have hFold : claim ≠ .fresh →
          (c.displacedContainer child = none ∨ c.moves.base[child]? ≠ none) ∧
            ∀ m, c₁.settledMoves list stamp child = some m → c₁.keepsParents m = true := by
        intro hClaim
        have hHeldIndex : c.placementIndex[placementKey list stamp]? ≠ none :=
          fun hNone => hClaim (hFresh.mpr (hIndex.mp hNone))
        simp only [Option.isNone_iff_eq_none, hHeldIndex, if_false, Bool.and_eq_true,
          Bool.or_eq_true, ExtTreeMap.contains_eq_isSome_getElem?,
          Option.isSome_iff_ne_none] at hGuard
        refine ⟨hGuard.1, fun m hm => ?_⟩
        rw [hSettledMoves] at hm
        exact Option.some.inj hm ▸ hGuard.2
      cases claim with
      | refused => exact absurd rfl hTaken
      | fresh =>
        have hFree := hFresh.mp rfl
        simp only [hIndex.mpr hFree, Option.isNone_none, if_true] at hGuard
        obtain ⟨hParents, hMoves⟩ := hTakes.free hFree
        let T := (c₂.seatClaim .fresh list stamp (.handle kind child) anchor).pushPlacement child
          ⟨list, stamp⟩
        refine (congrArg Content.Forest (linkBirth_eq (c := { T with
          revealedPending := T.revealedPending.erase child }) (hLink T hTakes))).mpr ?_
        refine hBears.unfolded (hTakes.linked.withPending _ fun x hx => ?_) hTakes.recorded
          (fun x hx => (hTakes.held x).mpr hx) hMoves hParents hGuard
        exact .inl (Finset.mem_of_mem_erase hx)
      | joined =>
        obtain ⟨hBorn, hKept⟩ := hFold (by simp)
        refine (congrArg (fun c => c.refoldMoves.Forest) (linkBirth_eq (hLink _ hTakes))).mpr ?_
        exact hBears.folded hTakes _ (fun x hx => hx) hBorn hKept
      | evicted =>
        obtain ⟨hBorn, hKept⟩ := hFold (by simp)
        let T := (c₂.seatClaim .evicted list stamp (.handle kind child) anchor).pushPlacement child
          ⟨list, stamp⟩
        refine (congrArg (fun c : Content => c.refoldMoves.Forest) (linkBirth_eq (c := { T with
          revealedPending := T.revealedPending.erase child }) (hLink T hTakes))).mpr ?_
        exact hBears.folded hTakes _ (fun x hx => Finset.mem_of_mem_erase hx) hBorn hKept
  cases tag with
  | none =>
    simp only [keepsForest, hGate, Bool.not_true, Bool.false_or] at hKeeps
    exact hBirth .text .text (.inr rfl) ⟨by simp, by simp⟩ _ _ rfl rfl hKeeps _ rfl
  | some t =>
    simp only [keepsForest, hGate, Bool.not_true, Bool.false_or] at hKeeps
    exact hBirth .xmlElement (.xmlElement t) (.inl rfl) ⟨by simp, by simp⟩ _ _ rfl rfl hKeeps _ rfl

end Births

theorem forest_new : new.Forest := by
  have hMaps : ∀ x, x ∈ new.maps → x = ROOT_ID := by
    intro x hx
    have hx' : x ∈ (∅ : Registry LwwMap).insert ROOT_ID (LwwMap.new ROOT_ID) := hx
    rw [ExtTreeMap.mem_insert, Std.compare_eq_iff_eq] at hx'
    exact (hx'.resolve_right ExtTreeMap.not_mem_empty).symm
  have hBase : ∀ x : ElementId, new.moves.base[x]? = none := by simp [new, TreeMoves.new]
  have hPlaces : ∀ x, new.placesOf x = [] := by simp [new, placesOf]
  refine ⟨⟨⟨TreeMoves.replays_new, ?_, ?_, ?_, ?_, ?_, ?_, ?_, ?_, ?_, ?_, ?_⟩, ?_⟩, ?_⟩
  · intro x y hxy
    rw [hBase] at hxy
    cases hxy
  · intro x y hxy
    rw [hBase] at hxy
    cases hxy
  · simp [new, TreeMoves.new, TreeMoves.entries]
  · simp [new, TreeMoves.new, TreeMoves.entries]
  · simp [new, TreeMoves.new]
  · simp [new]
  · intro x hx
    rw [hMaps x hx]
    rfl
  · simp [new]
  · intro x hx _
    refine .inl ?_
    rcases hx with hx | hx | hx | hx | hx | hx
    · exact hMaps x hx
    all_goals simp [new] at hx
  · intro x hx
    rw [hPlaces] at hx
    simp [new] at hx
  · simp [new]
  · simp [new, Follows]
  · simp [new, PlacesRecorded]

/-- The step: a mutation that meets the condition leaves a forest. -/
theorem Forest.applyKind [IdBytes] (h : c.Forest) {target : ElementId} {kind : OpKind} {stamp : Stamp}
    (hKeeps : c.keepsForest target kind stamp = true) (author : ClientId) :
    (c.applyKind target kind stamp author).Forest := by
  unfold Content.applyKind
  cases kind with
  | listInsert value anchor => exact h.same (SameTree.modify_lists ..)
  | listDelete id => exact h.deleteFromList target id
  | xmlInsertChild tag anchor => exact h.insertXmlChild anchor hKeeps
  | xmlMove node anchor => exact h.applyMove anchor hKeeps
  | xmlReveal node tag => exact h.applyReveal tag hKeeps
  | rangedCreate start stop payload name => exact h.createRanged stamp start stop payload name
  | rangedSetPayload id value => exact h.same (SameTree.modify_ranged ..)
  | rangedDelete id => exact h.same (SameTree.modify_ranged ..)
  | aclGrant subject grant effect scope grantor => exact h.same (SameTree.of_acl ..)
  | aclRevoke id => exact h.same (SameTree.of_acl ..)
  | textInsert s anchor => exact h.same (SameTree.modify_texts ..)
  | textDelete ids => exact h.same (SameTree.modify_texts ..)
  | mapCreate key => exact h.createContainer target key stamp .map
  | listCreate key => exact h.createContainer target key stamp .list
  | textCreate key => exact h.createContainer target key stamp .text
  | xmlElementCreate key tag => exact h.createContainer target key stamp (.xmlElement tag)
  | xmlFragmentCreate key => exact h.createContainer target key stamp .xmlFragment
  | counterInc key amount => exact h.same (SameTree.applyCounter ..)
  | counterDec key amount => exact h.same (SameTree.applyCounter ..)
  | mapSet key value => exact h.same (SameTree.onMap ..)
  | mapDelete key => exact h.same (SameTree.onMap ..)
  | registerSet key value => exact h.same (SameTree.onMap ..)

end Content

end CrdtSync
