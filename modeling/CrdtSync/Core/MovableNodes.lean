import CrdtSync.Core.ParentForest
import CrdtSync.Core.HeldStamps

/-!
# Movable nodes

A node becomes movable by its birth, which claims the position its id derives from, or by a reveal
that names it. No other mutation makes a node movable, and no position is ever unclaimed.
-/

namespace CrdtSync

open Lib
open Std (ExtTreeMap)

/-- The key bytes of the last stamp an id was derived with. -/
def ElementId.mintKey : ElementId → Option Bytes
  | fromBytes _ => none
  | derive parent key _ => if key.length = 24 then some key else parent.mintKey

theorem stampKey_length (stamp : Stamp) : (stampKey stamp).length = 24 := by
  rw [stampKey, List.length_append, leBytes_length]
  rfl

@[simp] theorem mintKey_xmlChildId (list : ElementId) (stamp : Stamp) (kind : ElementKind) :
    (xmlChildId list stamp kind).mintKey = some (stampKey stamp) :=
  if_pos (stampKey_length stamp)

@[simp] theorem mintKey_rangedId (stamp : Stamp) : (rangedId stamp).mintKey = some (stampKey stamp) :=
  if_pos (stampKey_length stamp)

@[simp] theorem mintKey_aclId (stamp : Stamp) : (aclId stamp).mintKey = some (stampKey stamp) :=
  if_pos (stampKey_length stamp)

@[simp] theorem mintKey_attrsId (id : ElementId) : (XmlElement.attrsId id).mintKey = id.mintKey := rfl

@[simp] theorem mintKey_childrenId (id : ElementId) :
    (XmlElement.childrenId id).mintKey = id.mintKey := rfl

@[simp] theorem mintKey_payloadId (id : ElementId) (kind : ElementKind) :
    (payloadId id kind).mintKey = id.mintKey := rfl

namespace Content

variable {c c' c'' : Content}

/-- Born at a position that has been claimed. -/
def Born (c : Content) (node : ElementId) : Prop :=
  ∃ list stamp kind, node = xmlChildId list stamp kind ∧ placementKey list stamp ∈ c.placementIndex

/-- The movable nodes outside `M` were born here. -/
def Known (M : Set ElementId) (c : Content) : Prop :=
  ∀ node, c.isMovable node = true → node ∈ M ∨ c.Born node

/-- No position is unclaimed, and only nodes in `N` become movable. -/
structure GainsMovable (N : Set ElementId) (c c' : Content) : Prop where
  index : ∀ key ∈ c.placementIndex, key ∈ c'.placementIndex
  movable : ∀ node, c'.isMovable node = true → c.isMovable node = true ∨ node ∈ N

theorem isMovable_iff {node : ElementId} :
    c.isMovable node = true ↔ node ∈ c.placements ∨ node ∈ c.revealedPending := by
  rw [isMovable, Bool.or_eq_true, decide_eq_true_eq, ExtTreeMap.contains_iff_mem]

namespace GainsMovable

variable {N : Set ElementId}

theorem refl (c : Content) : GainsMovable N c c := ⟨fun _ => id, fun _ => .inl⟩

theorem trans (h : GainsMovable N c c') (h' : GainsMovable N c' c'') : GainsMovable N c c'' where
  index key hKey := h'.index key (h.index key hKey)
  movable node hNode := (h'.movable node hNode).elim (h.movable node) .inr

theorem same (hPlacements : c'.placements = c.placements)
    (hIndex : c'.placementIndex = c.placementIndex)
        (hPending : c'.revealedPending = c.revealedPending) :
    GainsMovable N c c' := by
  refine ⟨fun key hKey => hIndex ▸ hKey, fun node hNode => .inl ?_⟩
  rw [isMovable_iff] at hNode ⊢
  rwa [hPlacements, hPending] at hNode

theorem ofShape (h : SameShape c c') : GainsMovable N c c' :=
  same h.placements h.placementIndex h.revealedPending

theorem register (c : Content) (id : ElementId) (kind : Container) :
    GainsMovable N c (c.register id kind) := by
  obtain ⟨-, -, hPlacements, hIndex, hPending, -⟩ := register_links c id kind
  exact same hPlacements hIndex hPending

theorem createContainer (c : Content) (map : ElementId) (key : Bytes) (stamp : Stamp)
    (kind : Container) :
    GainsMovable N c (c.createContainer map key stamp kind) := by
  have hRegister : GainsMovable N c (c.register (containerId map key kind) kind) := register ..
  unfold Content.createContainer
  split
  · exact refl c
  · dsimp only
    split
    · exact hRegister
    next m hm =>
      have hIn : map ∈ (c.register (containerId map key kind) kind).maps :=
        ExtTreeMap.mem_iff_isSome_getElem?.mpr (by rw [hm]; rfl)
      have hInstall := (SameTree.installAt _ hIn m key
        (.handle kind.elementKind (containerId map key kind)) stamp).toSameShape
      exact hRegister.trans
        (same hInstall.placements hInstall.placementIndex hInstall.revealedPending)

theorem createRanged (c : Content) (stamp : Stamp) (start stop : RangeAnchor) (payload : RangedInit)
    (name : Option Bytes) : GainsMovable N c (c.createRanged stamp start stop payload name) := by
  have hInstall (kind : ElementKind) : GainsMovable N c (c.installPayload (rangedId stamp) kind) := by
    have hLinked (container : Container) : GainsMovable N c
        ((c.register (payloadId (rangedId stamp) kind) container).link
          (payloadId (rangedId stamp) kind) (rangedId stamp)) :=
      (register c _ container).trans (same rfl rfl rfl)
    unfold installPayload
    split
    · exact hLinked .map
    · exact hLinked .list
    · exact hLinked .text
    · exact refl c
  unfold Content.createRanged
  dsimp only
  split
  · exact refl c
  · cases payload with
    | scalar value => exact same rfl rfl rfl
    | composite kind => exact (hInstall kind).trans (same rfl rfl rfl)

theorem deleteFromList [IdBytes] (c : Content) (list : ElementId) (id : Stamp) :
    GainsMovable N c (c.deleteFromList list id) := by
  have hDelete : GainsMovable N c (c.onList list fun l => l.deleteId id) := same rfl rfl rfl
  unfold Content.deleteFromList
  dsimp only
  split
  · exact hDelete.trans (ofShape (refoldMoves_shape _))
  · exact hDelete

theorem pushPlacement [IdBytes] (c : Content) (node : ElementId) (p : Placement) :
    GainsMovable {node} c (c.pushPlacement node p) := by
  refine ⟨fun _ => id, fun other hOther => ?_⟩
  rw [isMovable_iff] at hOther ⊢
  rcases hOther with hPlaced | hPending
  · rcases ExtTreeMap.mem_insert.mp hPlaced with hNew | hOld
    · exact .inr (Std.compare_eq_iff_eq.mp hNew).symm
    · exact .inl (.inl hOld)
  · exact .inl (.inr hPending)

/-- Whatever is left out of the pending nodes, or one of `N` put in. -/
theorem pending {waiting : Finset ElementId} (h : ∀ x ∈ waiting, x ∈ c.revealedPending ∨ x ∈ N) :
    GainsMovable N c { c with revealedPending := waiting } := by
  refine ⟨fun _ => id, fun node hNode => ?_⟩
  rw [isMovable_iff] at hNode ⊢
  rcases hNode with hPlaced | hPending
  · exact .inl (.inl hPlaced)
  · exact (h node hPending).imp_left .inr

section Claims

variable [IdBytes]

omit [IdBytes] in
/-- A node that loses a position stays movable. -/
theorem evictPlacement (c : Content) (list : ElementId) (stamp : Stamp) (held : ElementId) :
    GainsMovable N c (c.evictPlacement list stamp held) := by
  -- The places of a node that holds one are replaced or taken away; then it awaits a new one.
  have hReplaced {c₀ : Content} {places : List Placement} (hPlaces : c.placements[held]? = some places)
      (hSame : GainsMovable N c c₀) (hPlacements : c₀.placements = c.placements)
          (rest : List Placement) :
      GainsMovable N c { c₀ with placements := c₀.placements.insert held rest } := by
    refine ⟨hSame.index, fun node hNode => ?_⟩
    rcases isMovable_iff.mp hNode with hPlaced | hPending
    · rcases ExtTreeMap.mem_insert.mp hPlaced with hNew | hOld
      · refine .inl (isMovable_iff.mpr (.inl ?_))
        rw [← Std.compare_eq_iff_eq.mp hNew]
        exact ExtTreeMap.mem_iff_isSome_getElem?.mpr (by rw [hPlaces]; rfl)
      · exact .inl (isMovable_iff.mpr (.inl (hPlacements ▸ hOld)))
    · exact hSame.movable node (isMovable_iff.mpr (.inr hPending))
  have hTaken {c₀ : Content} {places : List Placement} (hPlaces : c.placements[held]? = some places)
      (hSame : GainsMovable N c c₀) (hPlacements : c₀.placements = c.placements) (parents : Parents) :
      GainsMovable N c { c₀ with
        placements := c₀.placements.erase held
        revealedPending := insert held c₀.revealedPending, parents } := by
    refine ⟨hSame.index, fun node hNode => ?_⟩
    rcases isMovable_iff.mp hNode with hPlaced | hPending
    · exact .inl (isMovable_iff.mpr (.inl (hPlacements ▸ (ExtTreeMap.mem_erase.mp hPlaced).2)))
    · rcases Finset.mem_insert.mp hPending with rfl | hOld
      · refine .inl (isMovable_iff.mpr (.inl ?_))
        exact ExtTreeMap.mem_iff_isSome_getElem?.mpr (by rw [hPlaces]; rfl)
      · exact hSame.movable node (isMovable_iff.mpr (.inr hOld))
  unfold Content.evictPlacement
  cases c.parents[list]? with
  | none =>
    dsimp only
    split
    · exact refl c
    next places hPlaces =>
      split
      · exact hReplaced hPlaces (refl c) rfl _
      · exact hTaken hPlaces (refl c) rfl _
  | some owner =>
    have hMoves : GainsMovable N c { c with moves := c.moves.remove stamp held owner } :=
      same rfl rfl rfl
    dsimp only
    split
    · exact hMoves
    next places hPlaces =>
      split
      · exact hReplaced hPlaces hMoves rfl _
      · exact hTaken hPlaces hMoves rfl _

/-- A claim leaves its position claimed, whoever holds it. -/
theorem claimPlacement (c : Content) (list : ElementId) (stamp : Stamp) (node : ElementId) :
    GainsMovable N c (c.claimPlacement list stamp node).2 ∧
      placementKey list stamp ∈ (c.claimPlacement list stamp node).2.placementIndex := by
  have hClaim (c : Content) : GainsMovable N c
      { c with placementIndex := c.placementIndex.insert (placementKey list stamp) node } :=
    ⟨fun key hKey => ExtTreeMap.mem_insert.mpr (.inr hKey), fun _ => .inl⟩
  unfold Content.claimPlacement
  dsimp only
  split
  · exact ⟨hClaim c, ExtTreeMap.mem_insert_self⟩
  next held hHeld =>
    have hIn : placementKey list stamp ∈ c.placementIndex :=
      ExtTreeMap.mem_iff_isSome_getElem?.mpr (by rw [hHeld]; rfl)
    split
    · exact ⟨refl c, hIn⟩
    · split
      · exact ⟨refl c, hIn⟩
      · exact ⟨(evictPlacement c list stamp held).trans (hClaim _), ExtTreeMap.mem_insert_self⟩

theorem seatClaim (c : Content) (claim : Claim) (list : ElementId) (stamp : Stamp) (element : Element)
    (anchor : Anchor) : GainsMovable N c (c.seatClaim claim list stamp element anchor) := by
  cases claim <;> exact same rfl rfl rfl

theorem settleBirth (c : Content) (claim : Claim) (list child : ElementId) (stamp : Stamp)
    (element : Element) (anchor : Anchor) :
    GainsMovable {child} c (
      let c := c.seatClaim claim list stamp element anchor
      let c := match claim with
        | .refused =>
          if c.placements.contains child then c
          else { c with revealedPending := insert child c.revealedPending }
        | .joined => c
        | .fresh | .evicted =>
          { c.pushPlacement child ⟨list, stamp⟩ with
            revealedPending := c.revealedPending.erase child }
      let c := match c.parents[list]? with
        | some owner => { c with moves := c.moves.setBase child owner }
        | none => c
      match claim with
      | .joined | .evicted => c.refoldMoves
      | .fresh | .refused => c) := by
  have hSeated : GainsMovable {child} c (c.seatClaim claim list stamp element anchor) := seatClaim ..
  have hLinked {c₀ : Content} (h : GainsMovable {child} c c₀) :
      GainsMovable {child} c (match c₀.parents[list]? with
        | some owner => ({ c₀ with moves := c₀.moves.setBase child owner } : Content)
        | none => c₀) := by
    split
    · exact h.trans (same rfl rfl rfl)
    · exact h
  have hPushed : GainsMovable {child} c { (c.seatClaim claim list stamp element anchor).pushPlacement
      child ⟨list, stamp⟩ with revealedPending :=
        (c.seatClaim claim list stamp element anchor).revealedPending.erase child } :=
    (hSeated.trans (pushPlacement _ child ⟨list, stamp⟩)).trans
      (pending fun x hx => .inl (Finset.mem_of_mem_erase hx))
  have hFold {c₀ : Content} (h : GainsMovable {child} c c₀) : GainsMovable {child} c c₀.refoldMoves :=
    h.trans (ofShape (refoldMoves_shape c₀))
  cases claim with
  | fresh => exact hLinked hPushed
  | joined => exact hFold (hLinked hSeated)
  | evicted => exact hFold (hLinked hPushed)
  | refused =>
    apply hLinked
    dsimp only
    split
    · exact hSeated
    · exact hSeated.trans (pending fun x hx => (Finset.mem_insert.mp hx).symm)

/-- A birth makes its child movable, and claims the position the child's id derives from. -/
theorem insertXmlChild (c : Content) (list : ElementId) (tag : Option Bytes) (anchor : Anchor)
    (stamp : Stamp) : ∃ N, GainsMovable N c (c.insertXmlChild list tag anchor stamp) ∧
      ∀ node ∈ N, (c.insertXmlChild list tag anchor stamp).Born node := by
  have hBorn (kind : ElementKind) (container : Container) {c' : Content} (claimed : Claim × Content)
      (hClaimed : claimed = Content.claimPlacement
          { c.register (xmlChildId list stamp kind) container with
        parents := (c.register (xmlChildId list stamp kind) container).parents.insert
          (xmlChildId list stamp kind) list } list stamp (xmlChildId list stamp kind))
      (hSettled : GainsMovable {xmlChildId list stamp kind} claimed.2 c') :
      ∃ N, GainsMovable N c c' ∧ ∀ node ∈ N, c'.Born node := by
    obtain ⟨hClaims, hKey⟩ := claimPlacement (N := {xmlChildId list stamp kind})
      { c.register (xmlChildId list stamp kind) container with
        parents := (c.register (xmlChildId list stamp kind) container).parents.insert
          (xmlChildId list stamp kind) list } list stamp (xmlChildId list stamp kind)
    rw [← hClaimed] at hClaims hKey
    have hShell : GainsMovable {xmlChildId list stamp kind} c
        { c.register (xmlChildId list stamp kind) container with
          parents := (c.register (xmlChildId list stamp kind) container).parents.insert
            (xmlChildId list stamp kind) list } :=
      (register c _ container).trans (same rfl rfl rfl)
    refine ⟨_, (hShell.trans hClaims).trans hSettled, ?_⟩
    rintro node rfl
    exact ⟨list, stamp, kind, rfl, hSettled.index _ hKey⟩
  unfold Content.insertXmlChild
  split
  · exact ⟨∅, refl c, fun _ hNode => absurd hNode (Set.notMem_empty _)⟩
  · cases tag with
    | none => exact hBorn .text .text _ rfl (settleBirth ..)
    | some tag => exact hBorn .xmlElement (.xmlElement tag) _ rfl (settleBirth ..)

theorem applyMove (c : Content) (dest node : ElementId) (anchor : Anchor) (stamp : Stamp) :
    GainsMovable ∅ c (c.applyMove dest node anchor stamp) := by
  unfold Content.applyMove
  split
  · exact refl c
  next hGuard =>
  have hMovable : c.isMovable node = true := by
    rw [Bool.or_eq_true, not_or] at hGuard
    simpa using hGuard.1
  suffices hNode : GainsMovable {node} c (c.applyMove dest node anchor stamp) by
    unfold Content.applyMove at hNode
    rw [if_neg hGuard] at hNode
    refine ⟨hNode.index, fun other hOther => (hNode.movable other hOther).elim .inl ?_⟩
    rintro rfl
    exact .inl hMovable
  unfold Content.applyMove
  rw [if_neg hGuard]
  split
  next owner element _ _ =>
    have hClaims := (claimPlacement (N := {node}) c dest stamp node).1
    generalize c.claimPlacement dest stamp node = claimed at hClaims
    obtain ⟨claim, c₁⟩ := claimed
    dsimp only at hClaims ⊢
    have hSeat := hClaims.trans (seatClaim c₁ claim dest stamp element anchor)
    generalize c₁.seatClaim claim dest stamp element anchor = c₂ at hSeat ⊢
    have hSettled (c₃ : Content) (h : GainsMovable {node} c c₃) : GainsMovable {node} c
        ({ c₃ with
          moves := c₃.moves.apply stamp node owner
          revealedPending := c₃.revealedPending.erase node } : Content).refoldMoves := by
      refine h.trans (trans ?_ (ofShape (refoldMoves_shape _)))
      have hMoves : GainsMovable {node} c₃ { c₃ with moves := c₃.moves.apply stamp node owner } :=
        same rfl rfl rfl
      exact hMoves.trans (pending fun x hx => .inl (Finset.mem_of_mem_erase hx))
    have hPush := hSeat.trans (pushPlacement c₂ node ⟨dest, stamp⟩)
    cases claim with
    | refused => exact hClaims
    | joined => exact hSettled c₂ hSeat
    | fresh => exact hSettled _ hPush
    | evicted => exact hSettled _ hPush
  · exact refl c

omit [IdBytes] in
theorem applyReveal (c : Content) (node : ElementId) (tag : Option Bytes) :
    GainsMovable {node} c (c.applyReveal node tag) := by
  unfold Content.applyReveal
  split
  · exact refl c
  · exact (register c node _).trans (pending fun x hx => (Finset.mem_insert.mp hx).symm)

end Claims

end GainsMovable

theorem Known.gains {M N : Set ElementId} (h : c.Known M) (hGains : GainsMovable N c c')
    (hN : ∀ node ∈ N, node ∈ M ∨ c'.Born node) : c'.Known M := by
  intro node hNode
  rcases hGains.movable node hNode with hOld | hNew
  · refine (h node hOld).imp_right ?_
    rintro ⟨list, stamp, kind, hId, hKey⟩
    exact ⟨list, stamp, kind, hId, hGains.index _ hKey⟩
  · exact hN node hNew

/-- A mutation makes a node movable by its birth, or by a reveal that names it. -/
theorem Known.applyKind [IdBytes] {M : Set ElementId} (h : c.Known M) (target : ElementId)
    {kind : OpKind} (hKind : ∀ node tag, kind = .xmlReveal node tag → node ∈ M) (stamp : Stamp)
    (author : ClientId) : (c.applyKind target kind stamp author).Known M := by
  have hKeep {c' : Content} (hGains : GainsMovable ∅ c c') : c'.Known M := h.gains hGains nofun
  cases kind with
  | mapSet key value =>
    exact hKeep (.ofShape (SameTree.onMap c target fun m => m.set key (.scalar value) stamp).toSameShape)
  | mapDelete key =>
    exact hKeep (.ofShape (SameTree.onMap c target fun m => m.delete key stamp).toSameShape)
  | registerSet key value =>
    exact hKeep (.ofShape (SameTree.onMap c target fun m => m.setRegister key value stamp).toSameShape)
  | counterInc key amount =>
    exact hKeep (.ofShape
        (SameTree.applyCounter c target key stamp fun n => n.inc author amount).toSameShape)
  | counterDec key amount =>
    exact hKeep (.ofShape
        (SameTree.applyCounter c target key stamp fun n => n.dec author amount).toSameShape)
  | mapCreate key => exact hKeep (.createContainer c target key stamp .map)
  | listCreate key => exact hKeep (.createContainer c target key stamp .list)
  | textCreate key => exact hKeep (.createContainer c target key stamp .text)
  | xmlElementCreate key tag => exact hKeep (.createContainer c target key stamp (.xmlElement tag))
  | xmlFragmentCreate key => exact hKeep (.createContainer c target key stamp .xmlFragment)
  | listInsert value anchor => exact hKeep (.same rfl rfl rfl)
  | listDelete id => exact hKeep (.deleteFromList c target id)
  | textInsert s anchor => exact hKeep (.same rfl rfl rfl)
  | textDelete ids => exact hKeep (.same rfl rfl rfl)
  | xmlInsertChild tag anchor =>
    obtain ⟨N, hGains, hBorn⟩ := GainsMovable.insertXmlChild c target tag anchor stamp
    exact h.gains hGains fun node hNode => .inr (hBorn node hNode)
  | xmlMove node anchor => exact hKeep (.applyMove c target node anchor stamp)
  | xmlReveal node tag =>
    refine h.gains (.applyReveal c node tag) ?_
    rintro other rfl
    exact .inl (hKind _ tag rfl)
  | rangedCreate start stop payload name => exact hKeep (.createRanged c stamp start stop payload name)
  | rangedSetPayload id value => exact hKeep (.same rfl rfl rfl)
  | rangedDelete id => exact hKeep (.same rfl rfl rfl)
  | aclGrant subject grant effect scope grantor => exact hKeep (.same rfl rfl rfl)
  | aclRevoke id => exact hKeep (.same rfl rfl rfl)

theorem known_new (M : Set ElementId) : Content.new.Known M := by
  intro node hNode
  rcases isMovable_iff.mp hNode with hPlaced | hPending
  · exact absurd hPlaced ExtTreeMap.not_mem_empty
  · cases hPending

theorem Known.stamp {M : Set ElementId} {S : Set Stamp} (h : c.Known M) (hWithin : c.Within S)
    {node : ElementId} (hNode : c.isMovable node = true) :
    node ∈ M ∨ ∃ stamp ∈ S, node.mintKey = some (stampKey stamp) := by
  refine (h node hNode).imp_right ?_
  rintro ⟨list, stamp, kind, rfl, hKey⟩
  obtain ⟨held, hHeld⟩ := Option.isSome_iff_exists.mp (ExtTreeMap.mem_iff_isSome_getElem?.mp hKey)
  exact ⟨stamp, hWithin.index _ _ hHeld, mintKey_xmlChildId ..⟩

end Content

end CrdtSync
