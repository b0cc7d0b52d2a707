import CrdtSync.Core.Content
import CrdtSync.Core.MoveReplay

/-!
# Parent links

The shape of an id tells where its container hangs: a container keyed into a map, a
half of an XML node and a payload hang under the id they derive from, a sequence
child under the list it derives from. What a replica records agrees with the shapes
everywhere but at the children of sequences, whose links follow the move log.
-/

namespace CrdtSync

open Lib
open Std (ExtTreeMap)

namespace ElementId

def kind : ElementId → Option ElementKind
  | derive _ _ kind => some kind
  | fromBytes _ => none

/-- The container an id was derived for. An element keyed into a map derives twice,
by its key and by its tag. -/
def home : ElementId → Option ElementId
  | derive parent _ kind => some (match kind, parent with
    | .xmlElement, derive map _ .xmlElement => map
    | _, parent => parent)
  | fromBytes _ => none

def isList (x : ElementId) : Bool := x.kind == some .list

/-- Whether an id is one a sequence child takes: an element or a text run derived
for a list. -/
def inSequence : ElementId → Bool
  | derive parent _ kind => (kind == .xmlElement || kind == .text) && parent.isList
  | fromBytes _ => false

/-- The container a node was created under. A sequence child is created under the
owner of its list. -/
def owner (x : ElementId) : Option ElementId := if x.inSequence then x.home.bind home else x.home

def depth : ElementId → Nat
  | fromBytes _ => 0
  | derive parent _ _ => parent.depth + 1

theorem depth_home {x y : ElementId} (h : x.home = some y) : y.depth < x.depth := by
  cases x with
  | fromBytes => cases h
  | derive parent key kind =>
    obtain rfl := Option.some.inj h
    cases kind <;> try exact Nat.lt_succ_self _
    cases parent with
    | fromBytes => exact Nat.lt_succ_self _
    | derive map key' kind' =>
      cases kind' <;> first | exact Nat.lt_succ_self _ | (simp only [depth]; omega)

theorem depth_owner {x y : ElementId} (h : x.owner = some y) : y.depth < x.depth := by
  unfold owner at h
  split at h
  · obtain ⟨list, hList, hOwner⟩ := Option.bind_eq_some_iff.mp h
    exact (depth_home hOwner).trans (depth_home hList)
  · exact depth_home h

theorem not_inSequence_of_isList {x : ElementId} (h : x.isList) : x.inSequence = false := by
  cases x with
  | fromBytes => rfl
  | derive parent key kind =>
    cases kind <;> first | rfl | cases h

theorem owner_of_isList {x : ElementId} (h : x.isList) : x.owner = x.home := by
  rw [owner, not_inSequence_of_isList h]
  rfl

end ElementId

open ElementId

section Shapes

variable (id list map : ElementId) (key tag : Bytes) (stamp : Stamp)

@[simp] theorem home_childrenId : (XmlElement.childrenId id).home = some id := rfl
@[simp] theorem isList_childrenId : (XmlElement.childrenId id).isList = true := rfl
@[simp] theorem owner_childrenId : (XmlElement.childrenId id).owner = some id := rfl
@[simp] theorem inSequence_childrenId : (XmlElement.childrenId id).inSequence = false := rfl
@[simp] theorem owner_attrsId : (XmlElement.attrsId id).owner = some id := rfl
@[simp] theorem isList_attrsId : (XmlElement.attrsId id).isList = false := rfl
@[simp] theorem inSequence_attrsId : (XmlElement.attrsId id).inSequence = false := rfl

theorem owner_containerId (kind : Container) (hMap : map.isList = false) :
    (Content.containerId map key kind).owner = some map ∧
      (Content.containerId map key kind).inSequence = false := by
  cases kind with
  | map => exact ⟨rfl, rfl⟩
  | list => exact ⟨rfl, rfl⟩
  | text =>
    have hSeq : (Content.containerId map key .text).inSequence = false := by
      simp [Content.containerId, Container.elementKind, inSequence, hMap]
    exact ⟨by rw [owner, hSeq]; rfl, hSeq⟩
  | xmlElement tag => exact ⟨rfl, rfl⟩
  | xmlFragment => exact ⟨rfl, rfl⟩

theorem inSequence_xmlChildId (kind : ElementKind) (h : kind = .xmlElement ∨ kind = .text) :
    (xmlChildId list stamp kind).inSequence = list.isList := by
  rcases h with rfl | rfl <;> simp [xmlChildId, inSequence]

theorem owner_xmlChildId (kind : ElementKind) (h : kind = .xmlElement ∨ kind = .text)
    (hList : list.isList) : (xmlChildId list stamp kind).owner = list.home := by
  rw [owner, inSequence_xmlChildId list stamp kind h, if_pos hList]
  cases list with
  | fromBytes => cases hList
  | derive parent key' kind' =>
    have hKind : kind' = .list := by simpa [isList, ElementId.kind] using hList
    subst hKind
    rcases h with rfl | rfl <;> rfl

end Shapes

section Linking

/-- Links recorded one after the other, in the parent map and under the move log. -/
def linkParents (parents : Parents) (links : List (ElementId × ElementId)) : Parents :=
  links.foldl (fun parents l => parents.insert l.1 l.2) parents

def TreeMoves.setBases (m : TreeMoves) (links : List (ElementId × ElementId)) : TreeMoves :=
  links.foldl (fun m l => m.setBase l.1 l.2) m

def Shaped (links : List (ElementId × ElementId)) : Prop := ∀ l ∈ links, l.1.owner = some l.2

variable {links : List (ElementId × ElementId)}

theorem linkParents_of_not_mem {x : ElementId} (hx : ∀ l ∈ links, l.1 ≠ x) (parents : Parents) :
    (linkParents parents links)[x]? = parents[x]? := by
  induction links generalizing parents with
  | nil => rfl
  | cons l links ih =>
    have hNe : x ≠ l.1 := (hx l List.mem_cons_self).symm
    refine (ih (fun l' hl' => hx l' (List.mem_cons_of_mem l hl')) (parents.insert l.1 l.2)).trans ?_
    rw [getElem?_insert_ite, if_neg hNe]

theorem linkParents_of_mem {f : ElementId → Option ElementId} (hf : ∀ l ∈ links, f l.1 = some l.2)
    {x : ElementId} (hx : ∃ l ∈ links, l.1 = x) (parents : Parents) :
    (linkParents parents links)[x]? = f x := by
  induction links generalizing parents with
  | nil =>
    obtain ⟨l, hl, -⟩ := hx
    cases hl
  | cons l links ih =>
    by_cases hLater : ∃ l' ∈ links, l'.1 = x
    · exact ih (fun l' hl' => hf l' (List.mem_cons_of_mem l hl')) hLater _
    · obtain ⟨l', hl', rfl⟩ := hx
      obtain rfl : l' = l := (List.mem_cons.mp hl').resolve_right fun h => hLater ⟨l', h, rfl⟩
      refine (linkParents_of_not_mem (fun l hl hEq => hLater ⟨l, hl, hEq⟩) _).trans ?_
      rw [getElem?_insert_ite, if_pos rfl, hf l' List.mem_cons_self]

namespace TreeMoves

@[simp] theorem setBases_tree (m : TreeMoves) : (m.setBases links).tree = m.tree := by
  induction links generalizing m with
  | nil => rfl
  | cons l links ih => exact (ih _).trans (setBase_tree m l.1 l.2)

@[simp] theorem setBases_entries (m : TreeMoves) : (m.setBases links).entries = m.entries := by
  induction links generalizing m with
  | nil => rfl
  | cons l links ih => exact (ih _).trans (setBase_entries m l.1 l.2)

/-- The created-under links agree with the shapes of the ids. -/
def BaseShaped (m : TreeMoves) : Prop := ∀ x y : ElementId, m.base[x]? = some y → x.owner = some y

theorem BaseShaped.acyclic {m : TreeMoves} (h : m.BaseShaped) : Acyclic (parentIn m.base) :=
  acyclic_of_measure depth fun x y hxy => depth_owner (h x y hxy)

theorem BaseShaped.setBase {m : TreeMoves} (h : m.BaseShaped) {x y : ElementId}
    (hShape : x.owner = some y) : (m.setBase x y).BaseShaped := by
  intro z w hz
  rw [setBase_base] at hz
  by_cases hzx : z = x
  · rw [if_pos hzx] at hz
    rw [hzx]
    cases hBase : m.base[x]? with
    | none =>
      rw [hBase, Option.none_or] at hz
      exact hShape.trans hz
    | some p =>
      rw [hBase, Option.some_or] at hz
      exact (h x p hBase).trans hz
  · rw [if_neg hzx] at hz
    exact h z w hz

theorem setBases_of_not_mem {x : ElementId} (hx : ∀ l ∈ links, l.1 ≠ x) (m : TreeMoves) :
    (m.setBases links).base[x]? = m.base[x]? := by
  induction links generalizing m with
  | nil => rfl
  | cons l links ih =>
    have hNe : x ≠ l.1 := (hx l List.mem_cons_self).symm
    refine (ih (fun l' hl' => hx l' (List.mem_cons_of_mem l hl')) (m.setBase l.1 l.2)).trans ?_
    rw [setBase_base, if_neg hNe]

theorem BaseShaped.setBases {m : TreeMoves} (h : m.BaseShaped) (hShaped : Shaped links) :
    (m.setBases links).BaseShaped := by
  induction links generalizing m with
  | nil => exact h
  | cons l links ih =>
    exact ih (h.setBase (hShaped l List.mem_cons_self))
      fun l' hl' => hShaped l' (List.mem_cons_of_mem l hl')

theorem BaseShaped.setBases_of_mem {m : TreeMoves} (h : m.BaseShaped) (hShaped : Shaped links)
    {x : ElementId} (hx : ∃ l ∈ links, l.1 = x) : (m.setBases links).base[x]? = x.owner := by
  induction links generalizing m with
  | nil =>
    obtain ⟨l, hl, -⟩ := hx
    cases hl
  | cons l links ih =>
    have hRest : Shaped links := fun l' hl' => hShaped l' (List.mem_cons_of_mem l hl')
    have hHead := h.setBase (hShaped l List.mem_cons_self)
    by_cases hLater : ∃ l' ∈ links, l'.1 = x
    · exact ih hHead hRest hLater
    · obtain ⟨l', hl', rfl⟩ := hx
      obtain rfl : l' = l := (List.mem_cons.mp hl').resolve_right fun hIn => hLater ⟨l', hIn, rfl⟩
      refine (setBases_of_not_mem (fun l hl hEq => hLater ⟨l, hl, hEq⟩) _).trans ?_
      rw [setBase_base, if_pos rfl]
      cases hBase : m.base[l'.1]? with
      | none => rw [Option.none_or, hShaped l' List.mem_cons_self]
      | some p => rw [Option.some_or, h _ p hBase]

/-- Links of ids outside a set that encloses the log keep the replay, and the set
encloses it still. -/
theorem Replays.setBases {m : TreeMoves} (h : m.Replays) {K : ElementId → Prop}
    (hK : Encloses m.base K m.entries) (hShape : m.BaseShaped) (hShaped : Shaped links)
    (hFresh : ∀ l ∈ links, m.base[l.1]? ≠ none ∨ ¬K l.1) :
    (m.setBases links).Replays ∧ Encloses (m.setBases links).base K m.entries := by
  induction links generalizing m with
  | nil => exact ⟨h, hK⟩
  | cons l links ih =>
    have hHead := hShape.setBase (hShaped l List.mem_cons_self)
    have hSame : ∀ x, K x → (m.setBase l.1 l.2).base[x]? = m.base[x]? := by
      intro x hx
      rw [setBase_base]
      by_cases hxl : x = l.1
      · subst hxl
        rw [if_pos rfl]
        obtain ⟨p, hp⟩ := Option.ne_none_iff_exists'.mp
          ((hFresh l List.mem_cons_self).resolve_right fun hNot => hNot hx)
        rw [hp, Option.some_or]
      · rw [if_neg hxl]
    have hStep := h.setBase hK (hFresh l List.mem_cons_self) hShape.acyclic hHead.acyclic
    have hEncloses : Encloses (m.setBase l.1 l.2).base K (m.setBase l.1 l.2).entries := by
      rw [setBase_entries]
      exact ⟨hK.logged, fun x y hx hxy => hK.linked x y hx ((hSame x hx).symm.trans hxy)⟩
    obtain ⟨hReplays, hLast⟩ := ih hStep hEncloses hHead
      (fun l' hl' => hShaped l' (List.mem_cons_of_mem l hl')) fun l' hl' => by
        refine (hFresh l' (List.mem_cons_of_mem l hl')).imp_left fun hSome => ?_
        rw [setBase_base]
        by_cases hEq : l'.1 = l.1
        · rw [if_pos hEq, ← hEq]
          obtain ⟨p, hp⟩ := Option.ne_none_iff_exists'.mp hSome
          simp [hp]
        · rwa [if_neg hEq]
    rw [setBase_entries] at hLast
    exact ⟨hReplays, hLast⟩

end TreeMoves

end Linking

namespace Content

/-- Whether some registry holds the container. -/
def Held (c : Content) (x : ElementId) : Prop :=
  x ∈ c.maps ∨ x ∈ c.lists ∨ x ∈ c.texts ∨ x ∈ c.xmlElements ∨ x ∈ c.xmlFragments ∨ x ∈ c.ranged

theorem displacedContainer_eq_none {c : Content} {x : ElementId} :
    c.displacedContainer x = none ↔ ¬c.Held x := by
  simp only [displacedContainer, Held, Option.or_eq_none_iff, Option.map_eq_none_iff,
    ExtTreeMap.mem_iff_isSome_getElem?, not_or, Bool.not_eq_true, Option.isSome_eq_false_iff,
    Option.isNone_iff_eq_none, and_assoc]

def placesOf (c : Content) (node : ElementId) : List Placement := c.placements[node]?.getD []

/-- What a replica records of its containers, but for the parent links of sequence
children. -/
structure Linked (c : Content) : Prop where
  replays : c.moves.Replays
  shaped : c.moves.BaseShaped
  baseHeld : ∀ x y, c.moves.base[x]? = some y → c.Held x ∧ c.Held y
  entryHeld : ∀ e ∈ c.moves.entries, c.Held e.parent
  entryPlaced : ∀ e ∈ c.moves.entries,
    ∃ p ∈ c.placesOf e.child, p.stamp = e.stamp ∧ p.list.home = some e.parent
  plainParent : ∀ x : ElementId, x.inSequence = false → c.parents[x]? = c.moves.base[x]?
  listLinked : ∀ x ∈ c.lists, x.isList ∧ c.moves.base[x]? = x.home
  mapPlain : ∀ x ∈ c.maps, x.isList = false
  rangedScalar : ∀ x ∈ c.ranged, x.kind = some .scalar
  heldLinked : ∀ x, c.Held x → x.inSequence = false → x = ROOT_ID ∨ x ∈ c.ranged ∨
    c.moves.base[x]? ≠ none
  movable : ∀ x, c.placesOf x ≠ [] ∨ x ∈ c.revealedPending → x.inSequence ∧ c.Held x
  indexPlaced : ∀ list stamp node, c.placementIndex[placementKey list stamp]? = some node →
    ⟨list, stamp⟩ ∈ c.placesOf node

/-- The parent link of a sequence child is a list of its effective parent. -/
def Follows (c : Content) (x : ElementId) : Prop :=
  ∀ p, c.parents[x]? = some p → p.isList ∧ c.moves.parentOf x = p.home

structure Rooted (c : Content) : Prop extends Linked c where
  follows : ∀ x : ElementId, x.inSequence → c.Follows x

namespace Linked

variable {c : Content}

theorem encloses (h : c.Linked) : TreeMoves.Encloses c.moves.base c.Held c.moves.entries :=
  ⟨h.entryHeld, fun x y _ hxy => (h.baseHeld x y hxy).2⟩

theorem acyclic (h : c.Linked) : Acyclic c.moves.parentOf := h.replays.acyclic h.shaped.acyclic

theorem parentOf_plain (h : c.Linked) {x : ElementId} (hx : x.inSequence = false) :
    c.moves.parentOf x = c.moves.base[x]? := by
  refine h.replays.parentOf_unlogged fun e he hChild => ?_
  obtain ⟨p, hp, -⟩ := h.entryPlaced e he
  have hSeq := (h.movable e.child (.inl (List.ne_nil_of_mem hp))).1
  rw [hChild, hx] at hSeq
  cases hSeq

/-- A node with no placement has no logged move. -/
theorem parentOf_unplaced (h : c.Linked) {x : ElementId} (hx : c.placesOf x = []) :
    c.moves.parentOf x = c.moves.base[x]? := by
  refine h.replays.parentOf_unlogged fun e he hChild => ?_
  obtain ⟨p, hp, -⟩ := h.entryPlaced e he
  rw [hChild, hx] at hp
  cases hp

theorem home_of_parent (h : c.Linked) {list owner : ElementId} (hList : list ∈ c.lists)
    (hOwner : c.parents[list]? = some owner) : list.home = some owner ∧ c.Held owner := by
  obtain ⟨hShape, hBase⟩ := h.listLinked list hList
  rw [h.plainParent list (not_inSequence_of_isList hShape)] at hOwner
  exact ⟨hBase.symm.trans hOwner, (h.baseHeld _ _ hOwner).2⟩

end Linked

/-- The parent links are acyclic: a link between plain containers is one of the
move log's, and the two links from a sequence child over its list are one. -/
theorem Rooted.ascends {c : Content} (h : c.Rooted) (x : ElementId) :
    ∃ n, ascend (parentIn c.parents) n x = none := by
  have hEnds := h.acyclic.ascend_eq_none c.moves.children (fun _ => TreeMoves.mem_children) x
  generalize c.moves.children.card + 1 = n at hEnds
  induction n generalizing x with
  | zero => cases hEnds
  | succ n ih =>
    rw [ascend_succ] at hEnds
    cases hUp : parentIn c.parents x with
    | none => exact ⟨1, by rw [ascend_succ, hUp]; rfl⟩
    | some p =>
      have hPlain : ∀ {y q : ElementId}, y.inSequence = false → parentIn c.parents y = some q →
          c.moves.parentOf y = some q := by
        intro y q hy hq
        rw [h.parentOf_plain hy, ← h.plainParent y hy]
        exact hq
      cases hSeq : x.inSequence with
      | false =>
        rw [hPlain hSeq hUp, Option.bind_some] at hEnds
        obtain ⟨m, hm⟩ := ih p hEnds
        exact ⟨m + 1, by rw [ascend_succ, hUp]; exact hm⟩
      | true =>
        obtain ⟨hList, hHome⟩ := h.follows x hSeq p hUp
        cases hNext : parentIn c.parents p with
        | none => exact ⟨2, by rw [ascend_succ, hUp, Option.bind_some, ascend_succ, hNext]; rfl⟩
        | some q =>
          have hPlainList := not_inSequence_of_isList hList
          have hq : p.home = some q := by
            rw [← owner_of_isList hList]
            exact h.shaped p q ((h.plainParent p hPlainList).symm.trans hNext)
          rw [hHome, hq, Option.bind_some] at hEnds
          obtain ⟨m, hm⟩ := ih q hEnds
          refine ⟨m + 2, ?_⟩
          rw [ascend_succ, hUp, Option.bind_some, ascend_succ, hNext]
          exact hm

theorem Rooted.acyclic_parents {c : Content} (h : c.Rooted) : Acyclic (parentIn c.parents) :=
  acyclic_of_ascends h.ascends

end Content

end CrdtSync
