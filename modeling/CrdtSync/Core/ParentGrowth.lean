import CrdtSync.Core.ParentLinks

/-!
# Growing the tree by created containers

A write to a container's content leaves the tree alone; a create adds containers no
registry held, each with the link its id gives.
-/

namespace CrdtSync

open Lib ElementId
open Std (ExtTreeMap)

namespace Content

variable {c c' c'' : Content}

/-- The registries hold the same containers and the moves and placements are the same. -/
structure SameShape (c c' : Content) : Prop where
  moves : c'.moves = c.moves
  placements : c'.placements = c.placements
  placementIndex : c'.placementIndex = c.placementIndex
  revealedPending : c'.revealedPending = c.revealedPending
  maps : ∀ x, x ∈ c'.maps ↔ x ∈ c.maps
  lists : ∀ x, x ∈ c'.lists ↔ x ∈ c.lists
  texts : ∀ x, x ∈ c'.texts ↔ x ∈ c.texts
  xmlElements : ∀ x, x ∈ c'.xmlElements ↔ x ∈ c.xmlElements
  xmlFragments : ∀ x, x ∈ c'.xmlFragments ↔ x ∈ c.xmlFragments
  ranged : ∀ x, x ∈ c'.ranged ↔ x ∈ c.ranged

structure SameTree (c c' : Content) : Prop extends SameShape c c' where
  parents : c'.parents = c.parents

namespace SameShape

theorem refl (c : Content) : SameShape c c :=
  ⟨rfl, rfl, rfl, rfl, fun _ => .rfl, fun _ => .rfl, fun _ => .rfl, fun _ => .rfl, fun _ => .rfl,
    fun _ => .rfl⟩

theorem trans (h : SameShape c c') (h' : SameShape c' c'') : SameShape c c'' where
  moves := h'.moves.trans h.moves
  placements := h'.placements.trans h.placements
  placementIndex := h'.placementIndex.trans h.placementIndex
  revealedPending := h'.revealedPending.trans h.revealedPending
  maps x := (h'.maps x).trans (h.maps x)
  lists x := (h'.lists x).trans (h.lists x)
  texts x := (h'.texts x).trans (h.texts x)
  xmlElements x := (h'.xmlElements x).trans (h.xmlElements x)
  xmlFragments x := (h'.xmlFragments x).trans (h.xmlFragments x)
  ranged x := (h'.ranged x).trans (h.ranged x)

theorem held (h : SameShape c c') (x : ElementId) : c'.Held x ↔ c.Held x := by
  simp only [Held, h.maps x, h.lists x, h.texts x, h.xmlElements x, h.xmlFragments x, h.ranged x]

theorem placesOf (h : SameShape c c') (x : ElementId) : c'.placesOf x = c.placesOf x := by
  rw [Content.placesOf, h.placements]
  rfl

end SameShape

namespace SameTree

theorem refl (c : Content) : SameTree c c := ⟨SameShape.refl c, rfl⟩

theorem trans (h : SameTree c c') (h' : SameTree c' c'') : SameTree c c'' :=
  ⟨h.toSameShape.trans h'.toSameShape, h'.parents.trans h.parents⟩

/-- Changing the content of a list, a text or a map changes no link. -/
theorem modify_lists (c : Content) (id : ElementId) (f : FugueList Element → FugueList Element) :
    SameTree c { c with lists := c.lists.modify id f } :=
  ⟨{ SameShape.refl c with lists := fun _ => ExtTreeMap.mem_modify }, rfl⟩

theorem modify_texts (c : Content) (id : ElementId) (f : FugueList Element → FugueList Element) :
    SameTree c { c with texts := c.texts.modify id f } :=
  ⟨{ SameShape.refl c with texts := fun _ => ExtTreeMap.mem_modify }, rfl⟩

theorem modify_maps (c : Content) (id : ElementId) (f : LwwMap → LwwMap) :
    SameTree c { c with maps := c.maps.modify id f } :=
  ⟨{ SameShape.refl c with maps := fun _ => ExtTreeMap.mem_modify }, rfl⟩

theorem modify_ranged (c : Content) (id : ElementId) (f : RangedEntry → RangedEntry) :
    SameTree c { c with ranged := c.ranged.modify id f } :=
  ⟨{ SameShape.refl c with ranged := fun _ => ExtTreeMap.mem_modify }, rfl⟩

theorem of_counters (c : Content) (counters : Registry Counter) : SameTree c { c with counters } :=
  ⟨⟨rfl, rfl, rfl, rfl, fun _ => .rfl, fun _ => .rfl, fun _ => .rfl, fun _ => .rfl, fun _ => .rfl,
    fun _ => .rfl⟩, rfl⟩

theorem of_acl (c : Content) (acl : Registry AclEntry) : SameTree c { c with acl } :=
  ⟨⟨rfl, rfl, rfl, rfl, fun _ => .rfl, fun _ => .rfl, fun _ => .rfl, fun _ => .rfl, fun _ => .rfl,
    fun _ => .rfl⟩, rfl⟩

theorem insert_maps (c : Content) {id : ElementId} (hId : id ∈ c.maps) (m : LwwMap) :
    SameTree c { c with maps := c.maps.insert id m } := by
  refine ⟨{ SameShape.refl c with maps := fun x => ?_ }, rfl⟩
  rw [ExtTreeMap.mem_insert, Std.compare_eq_iff_eq]
  constructor
  · rintro (rfl | h)
    · exact hId
    · exact h
  · exact .inr

theorem setDisplaced (c : Content) (away : Bool) (e : Element) :
    SameTree c (c.setDisplaced away e) := by
  unfold Content.setDisplaced
  split
  · exact modify_maps ..
  · exact modify_lists ..
  · exact modify_texts ..
  · exact of_counters ..
  · split
    · exact refl c
    · rename_i id _ x hx
      have hInsert : SameTree c
          { c with xmlElements := c.xmlElements.insert id { x with displaced := away } } := by
        refine ⟨{ SameShape.refl c with xmlElements := fun y => ?_ }, rfl⟩
        rw [ExtTreeMap.mem_insert, Std.compare_eq_iff_eq]
        constructor
        · rintro (rfl | h)
          · exact ExtTreeMap.mem_iff_isSome_getElem?.mpr (by rw [hx]; rfl)
          · exact h
        · exact .inr
      refine hInsert.trans ?_
      dsimp only
      split
      · split
        · exact (modify_maps ..).trans (modify_lists ..)
        · exact modify_lists ..
      · split
        · exact modify_maps ..
        · exact refl _
  · split
    · exact refl c
    · rename_i id _ f hf
      have hInsert : SameTree c
          { c with xmlFragments := c.xmlFragments.insert id { f with displaced := away } } := by
        refine ⟨{ SameShape.refl c with xmlFragments := fun y => ?_ }, rfl⟩
        rw [ExtTreeMap.mem_insert, Std.compare_eq_iff_eq]
        constructor
        · rintro (rfl | h)
          · exact ExtTreeMap.mem_iff_isSome_getElem?.mpr (by rw [hf]; rfl)
          · exact h
        · exact .inr
      refine hInsert.trans ?_
      dsimp only
      split
      · exact modify_lists ..
      · exact refl _
  · exact refl c

theorem putMap (c : Content) {id : ElementId} (hId : id ∈ c.maps) (written : LwwMap × Option Element) :
    SameTree c (c.putMap id written) := by
  unfold Content.putMap
  dsimp only
  split
  · exact (insert_maps c hId _).trans (setDisplaced ..)
  · exact insert_maps c hId _

theorem installAt (c : Content) {map : ElementId} (hMap : map ∈ c.maps) (m : LwwMap) (key : Bytes)
    (element : Element) (stamp : Stamp) : SameTree c (c.installAt map m key element stamp) := by
  unfold Content.installAt
  dsimp only
  split
  · exact (putMap c hMap _).trans (setDisplaced ..)
  · exact (putMap c hMap _).trans (setDisplaced ..)

theorem applyCounter (c : Content) (map : ElementId) (key : Bytes) (stamp : Stamp)
    (delta : Counter → Counter) : SameTree c (c.applyCounter map key stamp delta) := by
  unfold Content.applyCounter
  split
  · exact refl c
  · rename_i m hm
    have hMap : map ∈ c.maps := ExtTreeMap.mem_iff_isSome_getElem?.mpr (by rw [hm]; rfl)
    let id : ElementId := .derive map key .counter
    have hCounters := of_counters c (c.counters.insert id (delta (c.counters[id]?.getD Counter.new)))
    exact hCounters.trans (installAt _ (by exact hMap) ..)

theorem onMap [IdBytes] (c : Content) (map : ElementId) (write : LwwMap → LwwMap × Option Element) :
    SameTree c (c.onMap map write) := by
  unfold Content.onMap
  split
  · exact refl c
  · rename_i m hm
    exact putMap c (ExtTreeMap.mem_iff_isSome_getElem?.mpr (by rw [hm]; rfl)) _

end SameTree

section Frames

/-- Links recorded at sequence children only leave the rest as it was. -/
theorem Linked.reparent (h : c.Linked) (hSame : SameShape c c')
    (hPlain : ∀ x : ElementId, x.inSequence = false → c'.parents[x]? = c.parents[x]?) :
    c'.Linked where
  replays := hSame.moves ▸ h.replays
  shaped := hSame.moves ▸ h.shaped
  baseHeld x y hxy := by
    rw [hSame.moves] at hxy
    rw [hSame.held, hSame.held]
    exact h.baseHeld x y hxy
  entryHeld e he := by
    rw [hSame.moves] at he
    exact (hSame.held _).mpr (h.entryHeld e he)
  entryPlaced e he := by
    rw [hSame.moves] at he
    rw [hSame.placesOf]
    exact h.entryPlaced e he
  plainParent x hx := by
    rw [hPlain x hx, hSame.moves]
    exact h.plainParent x hx
  listLinked x hx := by
    rw [hSame.moves]
    exact h.listLinked x ((hSame.lists x).mp hx)
  mapPlain x hx := h.mapPlain x ((hSame.maps x).mp hx)
  rangedScalar x hx := h.rangedScalar x ((hSame.ranged x).mp hx)
  heldLinked x hx hSeq := by
    rw [hSame.ranged, hSame.moves]
    exact h.heldLinked x ((hSame.held x).mp hx) hSeq
  movable x hx := by
    rw [hSame.placesOf, hSame.revealedPending] at hx
    rw [hSame.held]
    exact h.movable x hx
  indexPlaced list stamp node hx := by
    rw [hSame.placementIndex] at hx
    rw [hSame.placesOf]
    exact h.indexPlaced list stamp node hx

theorem SameTree.follows (h : SameTree c c') {x : ElementId} (hx : c.Follows x) : c'.Follows x := by
  intro p hp
  rw [h.parents] at hp
  rw [h.moves]
  exact hx p hp

theorem Rooted.same (h : c.Rooted) (hSame : SameTree c c') : c'.Rooted :=
  ⟨h.reparent hSame.toSameShape fun x _ => by rw [hSame.parents],
    fun x hx => hSame.follows (h.follows x hx)⟩

end Frames

/-- `c'` is `c` with more containers, linked where their ids say. -/
structure Grows (links : List (ElementId × ElementId)) (c c' : Content) : Prop where
  moves : c'.moves = c.moves.setBases links
  parents : c'.parents = linkParents c.parents links
  placements : c'.placements = c.placements
  placementIndex : c'.placementIndex = c.placementIndex
  revealedPending : c'.revealedPending = c.revealedPending
  shaped : Shaped links
  plain : ∀ l ∈ links, l.1.inSequence = false ∧ l.1.kind ≠ some .scalar
  keeps : ∀ x, c.Held x → c'.Held x
  linkHeld : ∀ l ∈ links, c'.Held l.1 ∧ c'.Held l.2
  fresh : ∀ x, c'.Held x → c.Held x ∨ x.inSequence ∨ x ∈ c'.ranged ∨ ∃ l ∈ links, l.1 = x
  lists : ∀ x ∈ c'.lists, x ∈ c.lists ∨ x.isList ∧ ∃ l ∈ links, l.1 = x
  maps : ∀ x ∈ c'.maps, x ∈ c.maps ∨ x.isList = false
  ranged : ∀ x ∈ c'.ranged, x.kind = some .scalar
  rangedKept : ∀ x ∈ c.ranged, x ∈ c'.ranged

namespace Grows

variable {links : List (ElementId × ElementId)}

theorem placesOf (hGrows : Grows links c c') (x : ElementId) : c'.placesOf x = c.placesOf x := by
  rw [Content.placesOf, hGrows.placements]
  rfl

theorem fresh_link (hGrows : Grows links c c') (h : c.Linked) :
    ∀ l ∈ links, c.moves.base[l.1]? ≠ none ∨ ¬c.Held l.1 := by
  intro l hl
  by_cases hHeld : c.Held l.1
  · rcases h.heldLinked l.1 hHeld (hGrows.plain l hl).1 with hRoot | hRanged | hBase
    · have hOwner := hGrows.shaped l hl
      rw [hRoot] at hOwner
      cases hOwner
    · exact absurd (h.rangedScalar l.1 hRanged) (hGrows.plain l hl).2
    · exact .inl hBase
  · exact .inr hHeld

theorem replays (hGrows : Grows links c c') (h : c.Linked) :
    c'.moves.Replays ∧ TreeMoves.Encloses c'.moves.base c.Held c'.moves.entries := by
  have hSet := h.replays.setBases h.encloses h.shaped hGrows.shaped (hGrows.fresh_link h)
  rw [hGrows.moves, TreeMoves.setBases_entries]
  exact hSet

theorem base_of_link (hGrows : Grows links c c') (h : c.Linked) {x : ElementId}
    (hx : ∃ l ∈ links, l.1 = x) : c'.moves.base[x]? = x.owner := by
  rw [hGrows.moves]
  exact h.shaped.setBases_of_mem hGrows.shaped hx

theorem base_of_not_link (hGrows : Grows links c c') {x : ElementId} (hx : ¬∃ l ∈ links, l.1 = x) :
    c'.moves.base[x]? = c.moves.base[x]? := by
  rw [hGrows.moves]
  exact TreeMoves.setBases_of_not_mem (fun l hl hEq => hx ⟨l, hl, hEq⟩) _

theorem not_link_of_inSequence (hGrows : Grows links c c') {x : ElementId} (hx : x.inSequence) :
    ¬∃ l ∈ links, l.1 = x := by
  rintro ⟨l, hl, rfl⟩
  rw [(hGrows.plain l hl).1] at hx
  cases hx

/-- The growth keeps what every link of the replica says. -/
theorem linked (hGrows : Grows links c c') (h : c.Linked) : c'.Linked where
  replays := (hGrows.replays h).1
  shaped := by
    rw [hGrows.moves]
    exact h.shaped.setBases hGrows.shaped
  baseHeld x y hxy := by
    by_cases hx : ∃ l ∈ links, l.1 = x
    · rw [hGrows.base_of_link h hx] at hxy
      obtain ⟨l, hl, rfl⟩ := hx
      rw [hGrows.shaped l hl] at hxy
      obtain rfl := Option.some.inj hxy
      exact hGrows.linkHeld l hl
    · rw [hGrows.base_of_not_link hx] at hxy
      exact (h.baseHeld x y hxy).imp (hGrows.keeps x) (hGrows.keeps y)
  entryHeld e he := by
    rw [hGrows.moves, TreeMoves.setBases_entries] at he
    exact hGrows.keeps _ (h.entryHeld e he)
  entryPlaced e he := by
    rw [hGrows.moves, TreeMoves.setBases_entries] at he
    rw [hGrows.placesOf]
    exact h.entryPlaced e he
  plainParent x hx := by
    rw [hGrows.parents]
    by_cases hLink : ∃ l ∈ links, l.1 = x
    · rw [linkParents_of_mem hGrows.shaped hLink, hGrows.base_of_link h hLink]
    · rw [linkParents_of_not_mem fun l hl hEq => hLink ⟨l, hl, hEq⟩, h.plainParent x hx,
        hGrows.base_of_not_link hLink]
  listLinked x hx := by
    by_cases hLink : ∃ l ∈ links, l.1 = x
    · have hList : x.isList := (hGrows.lists x hx).elim (fun hOld => (h.listLinked x hOld).1) And.left
      exact ⟨hList, by rw [hGrows.base_of_link h hLink, owner_of_isList hList]⟩
    · rw [hGrows.base_of_not_link hLink]
      exact h.listLinked x ((hGrows.lists x hx).resolve_right fun hNew => hLink hNew.2)
  mapPlain x hx := (hGrows.maps x hx).elim (h.mapPlain x) id
  rangedScalar := hGrows.ranged
  heldLinked x hx hSeq := by
    by_cases hLink : ∃ l ∈ links, l.1 = x
    · rw [hGrows.base_of_link h hLink]
      obtain ⟨l, hl, rfl⟩ := hLink
      exact .inr (.inr (by rw [hGrows.shaped l hl]; simp))
    · rw [hGrows.base_of_not_link hLink]
      rcases hGrows.fresh x hx with hOld | hIn | hRanged | hLink'
      · exact (h.heldLinked x hOld hSeq).imp_right (Or.imp_left (hGrows.rangedKept x))
      · rw [hSeq] at hIn
        cases hIn
      · exact .inr (.inl hRanged)
      · exact absurd hLink' hLink
  movable x hx := by
    rw [hGrows.placesOf, hGrows.revealedPending] at hx
    exact (h.movable x hx).imp_right (hGrows.keeps x)
  indexPlaced list stamp node hx := by
    rw [hGrows.placementIndex] at hx
    rw [hGrows.placesOf]
    exact h.indexPlaced list stamp node hx

theorem follows (hGrows : Grows links c c') {x : ElementId} (hx : x.inSequence)
    (hFollows : c.Follows x) : c'.Follows x := by
  have hNot := hGrows.not_link_of_inSequence hx
  intro p hp
  rw [hGrows.parents, linkParents_of_not_mem fun l hl hEq => hNot ⟨l, hl, hEq⟩] at hp
  have hParent : c'.moves.parentOf x = c.moves.parentOf x := by
    unfold TreeMoves.parentOf
    rw [hGrows.base_of_not_link hNot, hGrows.moves, TreeMoves.setBases_tree]
  rw [hParent]
  exact hFollows p hp

theorem rooted (hGrows : Grows links c c') (h : c.Rooted) : c'.Rooted :=
  ⟨hGrows.linked h.toLinked, fun x hx => hGrows.follows hx (h.follows x hx)⟩

theorem same (hGrows : Grows links c c') (hSame : SameTree c' c'') : Grows links c c'' where
  moves := hSame.moves.trans hGrows.moves
  parents := hSame.parents.trans hGrows.parents
  placements := hSame.placements.trans hGrows.placements
  placementIndex := hSame.placementIndex.trans hGrows.placementIndex
  revealedPending := hSame.revealedPending.trans hGrows.revealedPending
  shaped := hGrows.shaped
  plain := hGrows.plain
  keeps x hx := (hSame.held x).mpr (hGrows.keeps x hx)
  linkHeld l hl := (hGrows.linkHeld l hl).imp (hSame.held _).mpr (hSame.held _).mpr
  fresh x hx := by
    rw [hSame.ranged]
    exact hGrows.fresh x ((hSame.held x).mp hx)
  lists x hx := hGrows.lists x ((hSame.lists x).mp hx)
  maps x hx := hGrows.maps x ((hSame.maps x).mp hx)
  ranged x hx := hGrows.ranged x ((hSame.ranged x).mp hx)
  rangedKept x hx := (hSame.ranged x).mpr (hGrows.rangedKept x hx)

end Grows

section Creates

/-- The links a container's own halves come with. -/
def halves (id : ElementId) : Container → List (ElementId × ElementId)
  | .xmlElement _ => [(XmlElement.attrsId id, id), (XmlElement.childrenId id, id)]
  | .xmlFragment => [(XmlElement.childrenId id, id)]
  | _ => []

theorem mem_insertIfNew_iff {α : Type} {r : Registry α} {id x : ElementId} {a : α} :
    x ∈ r.insertIfNew id a ↔ x = id ∨ x ∈ r := by
  rw [ExtTreeMap.mem_insertIfNew, Std.compare_eq_iff_eq, @eq_comm _ id x]

theorem held_register (c : Content) (id : ElementId) (kind : Container) (x : ElementId) :
    (c.register id kind).Held x ↔ c.Held x ∨ x = id ∨ ∃ l ∈ halves id kind, l.1 = x := by
  unfold Held
  cases kind <;>
    simp only [register, registerMap, registerList, link, halves, mem_insertIfNew_iff,
      List.mem_cons, List.not_mem_nil, or_false, exists_eq_or_imp, exists_eq_left, false_and,
      exists_false, @eq_comm _ (XmlElement.attrsId id), @eq_comm _ (XmlElement.childrenId id)] <;>
    tauto

theorem register_links (c : Content) (id : ElementId) (kind : Container) :
    (c.register id kind).moves = c.moves.setBases (halves id kind) ∧
      (c.register id kind).parents = linkParents c.parents (halves id kind) ∧
      (c.register id kind).placements = c.placements ∧
      (c.register id kind).placementIndex = c.placementIndex ∧
      (c.register id kind).revealedPending = c.revealedPending ∧
      (c.register id kind).ranged = c.ranged := by
  cases kind <;> exact ⟨rfl, rfl, rfl, rfl, rfl, rfl⟩

theorem mem_lists_register {c : Content} {id : ElementId} {kind : Container} {x : ElementId}
    (h : x ∈ (c.register id kind).lists) :
    x ∈ c.lists ∨ (kind = .list ∧ x = id) ∨ (x.isList ∧ ∃ l ∈ halves id kind, l.1 = x) := by
  cases kind with
  | map => exact .inl h
  | text => exact .inl h
  | list =>
    rcases mem_insertIfNew_iff.mp h with rfl | h
    · exact .inr (.inl ⟨rfl, rfl⟩)
    · exact .inl h
  | xmlElement tag =>
    rcases mem_insertIfNew_iff.mp h with rfl | h
    · exact .inr (.inr ⟨rfl, _, List.mem_cons_of_mem _ List.mem_cons_self, rfl⟩)
    · exact .inl h
  | xmlFragment =>
    rcases mem_insertIfNew_iff.mp h with rfl | h
    · exact .inr (.inr ⟨rfl, _, List.mem_cons_self, rfl⟩)
    · exact .inl h

theorem mem_maps_register {c : Content} {id : ElementId} {kind : Container} {x : ElementId}
    (h : x ∈ (c.register id kind).maps) :
    x ∈ c.maps ∨ (kind = .map ∧ x = id) ∨ x.isList = false := by
  cases kind with
  | map =>
    rcases mem_insertIfNew_iff.mp h with rfl | h
    · exact .inr (.inl ⟨rfl, rfl⟩)
    · exact .inl h
  | xmlElement tag =>
    rcases mem_insertIfNew_iff.mp h with rfl | h
    · exact .inr (.inr rfl)
    · exact .inl h
  | list => exact .inl h
  | text => exact .inl h
  | xmlFragment => exact .inl h

theorem shaped_halves (id : ElementId) (kind : Container) :
    Shaped (halves id kind) ∧
      ∀ l ∈ halves id kind, l.1.inSequence = false ∧ l.1.kind ≠ some .scalar := by
  cases kind <;> simp [halves, Shaped, ElementId.kind, XmlElement.attrsId, XmlElement.childrenId,
    owner, home, inSequence]

theorem halves_snd {id : ElementId} {kind : Container} {l : ElementId × ElementId}
    (h : l ∈ halves id kind) : l.2 = id := by
  cases kind <;> simp [halves] at h
  · rcases h with rfl | rfl <;> rfl
  · rw [h]

/-- A container keyed into a map or held by a range, registered with its halves and
linked to where its id says. -/
theorem grows_register_link (h : c.Linked) {id parent : ElementId} {kind : Container}
    (hOwner : id.owner = some parent) (hPlain : id.inSequence = false)
    (hKind : id.kind = some kind.elementKind) (hParent : c.Held parent) :
    Grows (halves id kind ++ [(id, parent)]) c ((c.register id kind).link id parent) := by
  obtain ⟨hMoves, hParents, hPlacements, hIndex, hPending, hRanged⟩ := register_links c id kind
  have hHeld : ∀ x, ((c.register id kind).link id parent).Held x ↔
      c.Held x ∨ x = id ∨ ∃ l ∈ halves id kind, l.1 = x := held_register c id kind
  have hLast : (id, parent) ∈ halves id kind ++ [(id, parent)] :=
    List.mem_append_right _ List.mem_cons_self
  constructor
  · rw [TreeMoves.setBases, List.foldl_append]
    exact congrArg (TreeMoves.setBase · id parent) hMoves
  · rw [linkParents, List.foldl_append]
    exact congrArg (ExtTreeMap.insert · id parent) hParents
  · exact hPlacements
  · exact hIndex
  · exact hPending
  · intro l hl
    rcases List.mem_append.mp hl with hHalf | hEnd
    · exact (shaped_halves id kind).1 l hHalf
    · rw [List.mem_singleton.mp hEnd]
      exact hOwner
  · intro l hl
    rcases List.mem_append.mp hl with hHalf | hEnd
    · exact (shaped_halves id kind).2 l hHalf
    · rw [List.mem_singleton.mp hEnd]
      refine ⟨hPlain, ?_⟩
      rw [hKind]
      cases kind <;> simp [Container.elementKind]
  · exact fun x hx => (hHeld x).mpr (.inl hx)
  · intro l hl
    rw [hHeld, hHeld]
    rcases List.mem_append.mp hl with hHalf | hEnd
    · exact ⟨.inr (.inr ⟨l, hHalf, rfl⟩), .inr (.inl (halves_snd hHalf))⟩
    · rw [List.mem_singleton.mp hEnd]
      exact ⟨.inr (.inl rfl), .inl hParent⟩
  · intro x hx
    rcases (hHeld x).mp hx with hOld | rfl | ⟨l, hl, rfl⟩
    · exact .inl hOld
    · exact .inr (.inr (.inr ⟨_, hLast, rfl⟩))
    · exact .inr (.inr (.inr ⟨l, List.mem_append_left _ hl, rfl⟩))
  · intro x hx
    rcases mem_lists_register hx with hOld | ⟨rfl, rfl⟩ | ⟨hList, l, hl, hEq⟩
    · exact .inl hOld
    · refine .inr ⟨?_, _, hLast, rfl⟩
      rw [isList, hKind]
      rfl
    · exact .inr ⟨hList, l, List.mem_append_left _ hl, hEq⟩
  · intro x hx
    rcases mem_maps_register hx with hOld | ⟨rfl, rfl⟩ | hList
    · exact .inl hOld
    · refine .inr ?_
      rw [isList, hKind]
      rfl
    · exact .inr hList
  · intro x hx
    exact h.rangedScalar x (hRanged ▸ hx)
  · intro x hx
    exact hRanged.symm ▸ hx

theorem grows_register_child (h : c.Linked) {id : ElementId} (hSeq : id.inSequence)
    (kind : Container) (hKind : kind ≠ .list ∧ kind ≠ .map) :
    Grows (halves id kind) c (c.register id kind) := by
  obtain ⟨hMoves, hParents, hPlacements, hIndex, hPending, hRanged⟩ := register_links c id kind
  have hHeld := held_register c id kind
  constructor
  · exact hMoves
  · exact hParents
  · exact hPlacements
  · exact hIndex
  · exact hPending
  · exact (shaped_halves id kind).1
  · exact (shaped_halves id kind).2
  · exact fun x hx => (hHeld x).mpr (.inl hx)
  · intro l hl
    rw [hHeld, hHeld]
    exact ⟨.inr (.inr ⟨l, hl, rfl⟩), .inr (.inl (halves_snd hl))⟩
  · intro x hx
    rcases (hHeld x).mp hx with hOld | rfl | hHalf
    · exact .inl hOld
    · exact .inr (.inl hSeq)
    · exact .inr (.inr (.inr hHalf))
  · intro x hx
    rcases mem_lists_register hx with hOld | ⟨hEq, -⟩ | hHalf
    · exact .inl hOld
    · exact absurd hEq hKind.1
    · exact .inr hHalf
  · intro x hx
    rcases mem_maps_register hx with hOld | ⟨hEq, -⟩ | hList
    · exact .inl hOld
    · exact absurd hEq hKind.2
    · exact .inr hList
  · intro x hx
    exact h.rangedScalar x (hRanged ▸ hx)
  · intro x hx
    exact hRanged.symm ▸ hx

theorem kind_containerId (map : ElementId) (key : Bytes) (kind : Container) :
    (containerId map key kind).kind = some kind.elementKind := by
  cases kind <;> rfl

theorem Rooted.createContainer (h : c.Rooted) (map : ElementId) (key : Bytes) (stamp : Stamp)
    (kind : Container) : (c.createContainer map key stamp kind).Rooted := by
  unfold Content.createContainer
  by_cases hMap : map ∈ c.maps
  · have hContains : ¬(!c.maps.contains map) = true := by simpa using hMap
    rw [if_neg hContains]
    dsimp only
    obtain ⟨hOwner, hPlain⟩ := owner_containerId map key kind (h.mapPlain map hMap)
    have hGrows := grows_register_link h.toLinked hOwner hPlain (kind_containerId map key kind)
      (.inl hMap)
    split
    · rename_i hNone
      have hIn : map ∈ (c.register (containerId map key kind) kind).maps := by
        cases kind <;> simp only [register, registerMap, registerList, link, mem_insertIfNew_iff] <;>
          simp [hMap]
      rw [ExtTreeMap.mem_iff_isSome_getElem?, hNone] at hIn
      cases hIn
    · rename_i m hSome
      have hIn : map ∈ (c.register (containerId map key kind) kind).maps :=
        ExtTreeMap.mem_iff_isSome_getElem?.mpr (by rw [hSome]; rfl)
      have hInstall := SameTree.installAt _ hIn m key
        (.handle kind.elementKind (containerId map key kind)) stamp
      refine hGrows.same ⟨?_, ?_⟩ |>.rooted h
      · exact { hInstall.toSameShape with
          moves := congrArg (TreeMoves.setBase · (containerId map key kind) map) hInstall.moves }
      · exact congrArg (ExtTreeMap.insert · (containerId map key kind) map) hInstall.parents
  · have hContains : (!c.maps.contains map) = true := by simpa [← ExtTreeMap.contains_iff_mem] using hMap
    rw [if_pos hContains]
    exact h

end Creates

end Content

end CrdtSync
