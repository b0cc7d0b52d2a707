import CrdtSync.Core.DiffExact

/-!
# Patching a sequence with its diff

Two lists folded from claims of one universe, in which an id is claimed at one anchor and for one
value, have what they share in one order. So taking out what the diff deletes, at its indices in the
old list, and putting in what it inserts, at its indices in the new one, makes the new list of the
old.
-/

namespace CrdtSync

open Lib Runs

namespace Cell

variable {V : Type} {place : Anchor × V} {held : Option (Cell V)}

def Accords (place : Anchor × V) (held : Option (Cell V)) : Prop :=
  ∀ c ∈ held, c.anchor = place.1 ∧ ∀ item ∈ c.item, item.value = place.2

theorem accords_seat (held : Option (Cell V)) : Accords place (seat place.2 place.1 held) := by
  intro c hCell
  unfold seat at hCell
  split at hCell
  · cases hCell
    exact ⟨rfl, fun item hItem => by cases hItem⟩
  · cases hCell
    exact ⟨rfl, fun item hItem => by cases hItem; rfl⟩
  · cases hCell
    exact ⟨rfl, fun item hItem => by cases hItem; rfl⟩

theorem Accords.delete (h : Accords place held) : Accords place (delete held) := by
  intro c hCell
  obtain ⟨c, hHeld, rfl⟩ := Option.map_eq_some_iff.mp hCell
  exact ⟨(h c hHeld).1, fun item hItem => by cases hItem⟩

theorem Accords.setMovedAway (h : Accords place held) (away : Bool) :
    Accords place (setMovedAway away held) := by
  intro c hCell
  obtain ⟨c, hHeld, rfl⟩ := Option.map_eq_some_iff.mp hCell
  refine ⟨(h c hHeld).1, fun item hItem => ?_⟩
  obtain ⟨shown, hShown, rfl⟩ := Option.map_eq_some_iff.mp hItem
  exact (h c hHeld).2 shown hShown

variable [SeqValue V]

theorem Accords.insert (h : Accords place held) : Accords place (insert place.2 place.1 held) := by
  unfold Cell.insert
  split
  · exact accords_seat _
  · split
    · exact accords_seat _
    · exact h
  · split
    · exact accords_seat _
    · exact h

theorem Accords.reseat (h : Accords place held) : Accords place (reseat place.2 place.1 held) := by
  unfold Cell.reseat
  split
  · exact h
  · exact accords_seat held

theorem Accords.rejoin (h : Accords place held) : Accords place (rejoin place.2 place.1 held) := by
  unfold Cell.rejoin
  split
  · exact h
  · cases held with
    | none => exact accords_seat none
    | some c =>
      dsimp only
      rw [(h c rfl).1, min_self]
      exact accords_seat _

end Cell

namespace FugueList

variable {V : Type} {l m : FugueList V} {place : Stamp → Anchor × V}

/-- Everything is held as the universe has it. -/
def Accords (place : Stamp → Anchor × V) (l : FugueList V) : Prop :=
  ∀ id, Cell.Accords (place id) (l.cellAt id)

theorem Accords.updates (hAccords : l.Accords place) {x : Stamp}
    {f : Option (Cell V) → Option (Cell V)}
    (h : Updates l m x f) (hf : Cell.Accords (place x) (f (l.cellAt x))) : m.Accords place := by
  intro id
  rw [h.cell]
  split
  next hSame => exact hSame ▸ hf
  next => exact hAccords id

variable [SeqValue V]

/-- A claim of the universe. The state of another list is none. -/
def Claims (place : Stamp → Anchor × V) (l : FugueList V) : Change V → Prop
  | .insert index value stamp => place stamp = (l.place index, value)
  | .insertAt id value anchor | .reseat id value anchor | .rejoin id value anchor =>
    place id = (anchor, value)
  | .merge _ => False
  | .delete _ | .deleteId _ | .setMovedAway _ _ => True

/-- The lists folded from claims of a universe. -/
inductive FoldedFrom (place : Stamp → Anchor × V) : FugueList V → Prop
  | new (id : ElementId) : FoldedFrom place (FugueList.new id)
  | change {l : FugueList V} {c : Change V} : FoldedFrom place l → Claims place l c →
      FoldedFrom place (l.applyChange c)

theorem Accords.applyChange (hl : l.WF) (hAccords : l.Accords place) {c : Change V}
    (hClaims : Claims place l c) : (l.applyChange c).WF ∧ (l.applyChange c).Accords place := by
  have hInsert {id : Stamp} {value : V} {anchor : Anchor} (h : place id = (anchor, value)) :
      (l.insertAt id value anchor).WF ∧ (l.insertAt id value anchor).Accords place := by
    have hUpdates := hl.insertAt id value anchor
    have hCell := (hAccords id).insert
    rw [h] at hCell
    exact ⟨hUpdates.wf, hAccords.updates hUpdates (h ▸ hCell)⟩
  have hDelete (id : Stamp) : (l.deleteId id).WF ∧ (l.deleteId id).Accords place :=
    ⟨(hl.deleteId id).wf, hAccords.updates (hl.deleteId id) (hAccords id).delete⟩
  cases c with
  | insert index value stamp =>
    simp only [FugueList.applyChange, FugueList.insert]
    split
    · exact ⟨hl, hAccords⟩
    · exact hInsert hClaims
  | insertAt id value anchor => exact hInsert hClaims
  | reseat id value anchor =>
    have hUpdates := hl.reseat id value anchor
    have hPlace : place id = (anchor, value) := hClaims
    have hCell := (hAccords id).reseat
    rw [hPlace] at hCell
    exact ⟨hUpdates.wf, hAccords.updates hUpdates (hPlace ▸ hCell)⟩
  | rejoin id value anchor =>
    have hUpdates := hl.rejoin id value anchor
    have hPlace : place id = (anchor, value) := hClaims
    have hCell := (hAccords id).rejoin
    rw [hPlace] at hCell
    exact ⟨hUpdates.wf, hAccords.updates hUpdates (hPlace ▸ hCell)⟩
  | delete index =>
    simp only [FugueList.applyChange, FugueList.delete]
    split
    · exact hDelete _
    · exact ⟨hl, hAccords⟩
  | deleteId id => exact hDelete id
  | setMovedAway id away =>
    exact ⟨(hl.setMovedAway id away).wf,
      hAccords.updates (hl.setMovedAway id away) ((hAccords id).setMovedAway away)⟩
  | merge other => exact hClaims.elim

theorem FoldedFrom.accords (h : FoldedFrom place l) : l.WF ∧ l.Accords place := by
  induction h with
  | new id =>
    refine ⟨wf_new id, fun x c hCell => ?_⟩
    rw [← (refines_new id).cell, Std.ExtTreeMap.getElem?_empty] at hCell
    cases hCell
  | change _ hClaims ih => exact ih.2.applyChange ih.1 hClaims

theorem FoldedFrom.shared (h : FoldedFrom place l) (h' : FoldedFrom place m) :
    ∃ ids : List Stamp, ids.Nodup ∧ l.liveOrder.Sublist ids ∧ m.liveOrder.Sublist ids := by
  obtain ⟨hl, hAccords⟩ := h.accords
  obtain ⟨hm, hAccords'⟩ := h'.accords
  have hSame : ∀ id held anchor, l.anchorOf id = some held → m.anchorOf id = some anchor →
      held = anchor := by
    intro id held anchor hHeld hAnchor
    rw [anchorOf_eq] at hHeld hAnchor
    obtain ⟨c, hCell, rfl⟩ := Option.map_eq_some_iff.mp hHeld
    obtain ⟨c', hCell', rfl⟩ := Option.map_eq_some_iff.mp hAnchor
    rw [(hAccords id c hCell).1, (hAccords' id c' hCell').1]
  obtain ⟨hWF, hKeeps⟩ := applyChange_keeps hl (c := .merge m) ⟨hm, hSame⟩
  refine ⟨(l.merge m).sequence, hWF.sequence_nodup, ?_, ?_⟩
  · rw [hl.liveOrder_eq]
    exact List.filter_sublist.trans (hKeeps.sequence hl hWF)
  · rw [hm.liveOrder_eq]
    exact List.filter_sublist.trans ((merge_keeps_other hl hm hSame).sequence hm hWF)

omit [SeqValue V] in
theorem Accords.nodeValue (h : l.Accords place) {id : Stamp} {value : V}
    (hValue : l.nodeValue id = some value) :
    value = (place id).2 := by
  obtain ⟨n, hNode, rfl⟩ := Option.map_eq_some_iff.mp hValue
  exact (h id _ (cellAt_of_node hNode)).2 _ rfl

end FugueList

namespace Diff

open FugueList

variable {l m : FugueList Element} {place : Stamp → Anchor × Element}

/-- What is read index by index is read in order. -/
theorem filterMap_range {α β : Type} (f : α → Option β) {xs : List α} {n : Nat} (h : xs.length ≤ n) :
    (List.range n).filterMap (fun i => xs[i]?.bind f) = xs.filterMap f := by
  induction xs generalizing n with
  | nil => simp
  | cons x xs ih =>
    cases n with
    | zero => simp at h
    | succ n =>
      rw [List.range_succ_eq_map, List.filterMap_cons, List.filterMap_map]
      have hRest := ih (n := n) (by simpa using h)
      simp only [List.getElem?_cons_zero, Option.bind_some, Function.comp_def,
        List.getElem?_cons_succ, hRest, List.filterMap_cons]

section Entries

variable {α : Type} {item : Element → Option α}

/-- The live ids with what each reads, in sequence order. -/
def entriesOf (l : FugueList Element) (item : Element → Option α) : List (Stamp × α) :=
  l.liveOrder.filterMap fun id =>
    (l.nodeValue id).bind fun value => (item value).map fun a => (id, a)

theorem entriesOf_items (l : FugueList Element) (item : Element → Option α) :
    (entriesOf l item).map Prod.snd = l.values.filterMap item := by
  rw [entriesOf, values, List.map_filterMap, List.filterMap_filterMap]
  refine List.filterMap_congr fun id _ => ?_
  cases l.nodeValue id with
  | none => rfl
  | some value =>
    change ((item value).map fun a => (id, a)).map Prod.snd = item value
    cases item value <;> rfl

theorem mem_entriesOf {entry : Stamp × α} (h : entry ∈ entriesOf l item) :
    ∃ value, l.nodeValue entry.1 = some value ∧ item value = some entry.2 := by
  obtain ⟨id, -, hEntry⟩ := List.mem_filterMap.mp h
  obtain ⟨value, hValue, hItem⟩ := Option.bind_eq_some_iff.mp hEntry
  obtain ⟨a, hRead, rfl⟩ := Option.map_eq_some_iff.mp hItem
  exact ⟨value, hValue, hRead⟩

/-- Everything a list shows reads as an item. -/
def Readable (l : FugueList Element) (item : Element → Option α) : Prop :=
  ∀ id ∈ l.liveOrder, ∃ value a, l.nodeValue id = some value ∧ item value = some a

theorem entriesOf_keys (h : Readable l item) : (entriesOf l item).map Prod.fst = l.liveOrder := by
  unfold entriesOf
  unfold Readable at h
  generalize l.liveOrder = ids at h
  induction ids with
  | nil => rfl
  | cons id ids ih =>
    obtain ⟨value, a, hValue, hItem⟩ := h id List.mem_cons_self
    rw [List.filterMap_cons_some (by rw [hValue, Option.bind_some, hItem, Option.map_some]),
      List.map_cons, ih fun other hOther => h other (List.mem_cons_of_mem _ hOther)]

theorem listSeq_eq (hl : l.WF) : listSeq l = entriesOf l fun value => some (seqItem value) := by
  unfold listSeq entriesOf
  rw [← filterMap_range _ hl.liveOrder_length_le]
  refine List.filterMap_congr fun i _ => ?_
  unfold FugueList.get nodeAt
  cases l.liveOrder[i]? with
  | none => rfl
  | some id => rfl

theorem readable_seqItem (l : FugueList Element) : Readable l fun value => some (seqItem value) := by
  intro id hId
  obtain ⟨value, hValue⟩ := exists_nodeValue_of_mem_liveOrder hId
  exact ⟨value, _, hValue, rfl⟩

/-- A text of codepoints reads one of them for each id. -/
theorem charSeq_eq (hl : l.WF) (h : Readable l Element.codepoint) :
    charSeq l = entriesOf l Element.codepoint := by
  have hIds : l.nodeIds 0 l.len = l.liveOrder := by
    rw [nodeIds, List.drop_zero, List.take_of_length_le hl.liveOrder_length_le]
  rw [charSeq, hIds, asString, values, entriesOf]
  unfold Readable at h
  generalize l.liveOrder = ids at h
  induction ids with
  | nil => rfl
  | cons id ids ih =>
    obtain ⟨value, char, hValue, hChar⟩ := h id List.mem_cons_self
    rw [List.filterMap_cons_some hValue, List.filterMap_cons_some hChar, List.zip_cons_cons,
      List.filterMap_cons_some (by rw [hValue, Option.bind_some, hChar, Option.map_some]),
      ih fun other hOther => h other (List.mem_cons_of_mem _ hOther)]

variable [IdBytes]

/-- Between two lists of one universe, the runs the one lacks and those it has alone make the one
of the other. -/
theorem patch_entries (hl : FoldedFrom place l) (hm : FoldedFrom place m) (hRead : Readable l item)
    (hRead' : Readable m item) :
    insertRuns (absentRuns (entriesOf m item) (entriesOf l item))
        (removeRuns (absentRuns (entriesOf l item) (entriesOf m item)) (l.values.filterMap item)) =
      m.values.filterMap item := by
  obtain ⟨ids, hNodup, hSub, hSub'⟩ := hl.shared hm
  rw [← entriesOf_items, ← entriesOf_items]
  refine insertRuns_removeRuns (entriesOf_keys hRead ▸ hSub) (entriesOf_keys hRead' ▸ hSub') hNodup
    ?_
  intro x hx y hy hKeys
  obtain ⟨value, hValue, hItem⟩ := mem_entriesOf hx
  obtain ⟨value', hValue', hItem'⟩ := mem_entriesOf hy
  rw [hl.accords.2.nodeValue hValue] at hItem
  rw [hm.accords.2.nodeValue hValue', ← hKeys] at hItem'
  exact Option.some.inj (hItem.symm.trans hItem')

/-- No run is lacking where the same ids are shown. -/
theorem absentRuns_eq_nil_iff (hl : FoldedFrom place l) (hm : FoldedFrom place m)
    (hRead : Readable l item) (hRead' : Readable m item) :
    (absentRuns (entriesOf l item) (entriesOf m item) = [] ∧
      absentRuns (entriesOf m item) (entriesOf l item) = []) ↔ l.liveOrder = m.liveOrder := by
  obtain ⟨ids, hNodup, hSub, hSub'⟩ := hl.shared hm
  have hRuns {x y : FugueList Element} (hx : Readable x item) (hy : Readable y item) :
      absentRuns (entriesOf x item) (entriesOf y item) = [] ↔
        ∀ id ∈ x.liveOrder, id ∈ y.liveOrder := by
    rw [absentRuns, runs_eq_nil_iff, entriesOf_keys hy, ← entriesOf_keys hx, List.forall_mem_map]
    simp
  rw [hRuns hRead hRead', hRuns hRead' hRead]
  constructor
  · rintro ⟨hIn, hIn'⟩
    rw [sublist_eq_filter hSub hNodup, sublist_eq_filter hSub' hNodup]
    exact List.filter_congr fun id _ => decide_eq_decide.mpr ⟨hIn id, hIn' id⟩
  · intro hSame
    rw [hSame]
    exact ⟨fun _ h => h, fun _ h => h⟩

end Entries

def listDeletes (changes : List Change) : List (Nat × List SeqItem) :=
  changes.filterMap fun
    | .listDelete _ index items => some (index, items)
    | _ => none

def listInserts (changes : List Change) : List (Nat × List SeqItem) :=
  changes.filterMap fun
    | .listInsert _ index items => some (index, items)
    | _ => none

def textDeletes (changes : List Change) : List (Nat × List Char) :=
  changes.filterMap fun
    | .textDelete _ index text => some (index, text)
    | _ => none

def textInserts (changes : List Change) : List (Nat × List Char) :=
  changes.filterMap fun
    | .textInsert _ index text => some (index, text)
    | _ => none

/-- The items of a list once its diff is applied: the deletes at their old indices, then the inserts
at their new ones. -/
def patchList (changes : List Change) (items : List SeqItem) : List SeqItem :=
  insertRuns (listInserts changes) (removeRuns (listDeletes changes) items)

def patchText (changes : List Change) (text : List Char) : List Char :=
  insertRuns (textInserts changes) (removeRuns (textDeletes changes) text)

theorem listRuns_diffList (l m : FugueList Element) (path : List Bytes) :
    listDeletes (diffList l m path) = absentRuns (listSeq l) (listSeq m) ∧
      listInserts (diffList l m path) = absentRuns (listSeq m) (listSeq l) := by
  constructor <;>
    simp [listDeletes, listInserts, diffList, List.filterMap_append, List.filterMap_map]

theorem textRuns_diffText (l m : FugueList Element) (path : List Bytes) :
    textDeletes (diffText l m path) = absentRuns (charSeq l) (charSeq m) ∧
      textInserts (diffText l m path) = absentRuns (charSeq m) (charSeq l) := by
  constructor <;>
    simp [textDeletes, textInserts, diffText, List.filterMap_append, List.filterMap_map]

theorem diffList_eq_nil_iff (l m : FugueList Element) (path : List Bytes) :
    diffList l m path = [] ↔
      absentRuns (listSeq l) (listSeq m) = [] ∧ absentRuns (listSeq m) (listSeq l) = [] := by
  simp [diffList]

theorem diffText_eq_nil_iff (l m : FugueList Element) (path : List Bytes) :
    diffText l m path = [] ↔
      absentRuns (charSeq l) (charSeq m) = [] ∧ absentRuns (charSeq m) (charSeq l) = [] := by
  simp [diffText]

variable [IdBytes]

theorem readable_codepoint (h : FoldedFrom place l)
    (hText : ∀ id, (place id).2.codepoint.isSome) : Readable l Element.codepoint := by
  intro id hId
  obtain ⟨value, hValue⟩ := exists_nodeValue_of_mem_liveOrder hId
  obtain ⟨char, hChar⟩ := Option.isSome_iff_exists.mp (hText id)
  exact ⟨value, char, hValue, h.accords.2.nodeValue hValue ▸ hChar⟩

/-- Between two lists folded from claims of one universe, applying the diff to what the one shows
gives what the other shows, and the diff is empty exactly when they show the same ids; and so it is
for two texts. -/
theorem diff_patches (hl : FoldedFrom place l) (hm : FoldedFrom place m)
    (path : List Bytes) :
    (patchList (diffList l m path) (l.values.map seqItem) = m.values.map seqItem ∧
      (diffList l m path = [] ↔ l.liveOrder = m.liveOrder)) ∧
      ((∀ id, (place id).2.codepoint.isSome) →
        patchText (diffText l m path) l.asString = m.asString ∧
          (diffText l m path = [] ↔ l.liveOrder = m.liveOrder)) := by
  refine ⟨⟨?_, ?_⟩, fun hText => ?_⟩
  · have hPatch := patch_entries hl hm (readable_seqItem l) (readable_seqItem m)
    simp only [List.filterMap_eq_map'] at hPatch
    rw [patchList, (listRuns_diffList l m path).1, (listRuns_diffList l m path).2,
      listSeq_eq hl.accords.1, listSeq_eq hm.accords.1]
    exact hPatch
  · rw [diffList_eq_nil_iff, listSeq_eq hl.accords.1, listSeq_eq hm.accords.1]
    exact absentRuns_eq_nil_iff hl hm (readable_seqItem l) (readable_seqItem m)
  · have hRead := readable_codepoint hl hText
    have hRead' := readable_codepoint hm hText
    constructor
    · rw [patchText, (textRuns_diffText l m path).1, (textRuns_diffText l m path).2,
        charSeq_eq hl.accords.1 hRead, charSeq_eq hm.accords.1 hRead']
      exact patch_entries hl hm hRead hRead'
    · rw [diffText_eq_nil_iff, charSeq_eq hl.accords.1 hRead, charSeq_eq hm.accords.1 hRead']
      exact absentRuns_eq_nil_iff hl hm hRead hRead'

end Diff

section Examples

open FugueList Diff

local instance patchIdBytes : IdBytes := IdBytes.spelled

/-- Three codepoints, each typed after the one before. -/
def typedPlaces (id : Stamp) : Anchor × Element :=
  if id = ⟨1, ⟨1⟩, 0⟩ then ((FugueList.new (V := Element) (.fromBytes 0)).place 0, .scalar (.int 97))
  else if id = ⟨2, ⟨1⟩, 0⟩ then (⟨some ⟨1, ⟨1⟩, 0⟩, .right⟩, .scalar (.int 98))
  else (⟨some ⟨2, ⟨1⟩, 0⟩, .right⟩, .scalar (.int 99))

def typedTwo : FugueList Element :=
  ((FugueList.new (.fromBytes 0)).applyChange
    (.insert 0 (.scalar (.int 97)) ⟨1, ⟨1⟩, 0⟩)).applyChange
    (.insert 1 (.scalar (.int 98)) ⟨2, ⟨1⟩, 0⟩)

/-- The first of the two is deleted, and the third typed. -/
def typedOn : FugueList Element :=
  (typedTwo.applyChange (.delete 0)).applyChange (.insert 1 (.scalar (.int 99)) ⟨3, ⟨1⟩, 0⟩)

theorem foldedFrom_typedTwo : FoldedFrom typedPlaces typedTwo :=
  .change (.change (.new _) (show typedPlaces _ = _ by decide +kernel))
    (show typedPlaces _ = _ by decide +kernel)

theorem foldedFrom_typedOn : FoldedFrom typedPlaces typedOn :=
  .change (.change foldedFrom_typedTwo trivial) (show typedPlaces _ = _ by decide +kernel)

theorem codepoint_typedPlaces (id : Stamp) : (typedPlaces id).2.codepoint.isSome := by
  unfold typedPlaces
  split
  · rfl
  · split <;> rfl

theorem diff_patches_typed :
    typedTwo.asString = ['a', 'b'] ∧ typedOn.asString = ['b', 'c'] ∧
      patchText (diffText typedTwo typedOn []) ['a', 'b'] = ['b', 'c'] ∧
      patchList (diffList typedTwo typedOn []) [.scalar (.int 97), .scalar (.int 98)] =
        [.scalar (.int 98), .scalar (.int 99)] :=
  have hPatches := diff_patches foldedFrom_typedTwo foldedFrom_typedOn []
  ⟨by decide +kernel, by decide +kernel, (hPatches.2 codepoint_typedPlaces).1, hPatches.1.1⟩

end Examples

end CrdtSync
