import CrdtSync.Core.Content
import CrdtSync.Core.FugueCells

/-!
# The stamps a content holds

Ids and stamps enter the content with the mutation that reserves them and no other
way: nodes live and deleted, slots and the creates and registers in them, moves,
placements, annotations and authorization tuples.
-/

namespace CrdtSync

open Lib
open Std (ExtTreeMap)

variable {S S' : Set Stamp}

/-- A sequence whose ids, live and deleted, are all in `S`. -/
structure FugueList.Within {V : Type} (S : Set Stamp) (l : FugueList V) : Prop where
  wf : l.WF
  ids : ∀ id, l.cellAt id ≠ none → id ∈ S

structure Entry.Within (S : Set Stamp) (e : Entry) : Prop where
  stamp : e.stamp ∈ S
  create : ∀ made, e.container = some made → made.stamp ∈ S
  register : ∀ r, e.value = some (.register r) → r.stamp ∈ S

def LwwMap.Within (S : Set Stamp) (m : LwwMap) : Prop := AllEntries (fun _ e => e.Within S) m.slots

def Payload.Within (S : Set Stamp) : Payload → Prop
  | .scalar _ stamp => stamp ∈ S
  | .composite _ => True

/-- A content all of whose ids and stamps are in `S`, up to the annotations and tuples whose ids are
in `R`. -/
structure Content.WithinBut (R : Set ElementId) (S : Set Stamp) (c : Content) : Prop where
  maps : AllEntries (fun _ m => m.Within S) c.maps
  lists : AllEntries (fun _ l => l.Within S) c.lists
  texts : AllEntries (fun _ l => l.Within S) c.texts
  moves : ∀ op ∈ c.moves.log, op.stamp ∈ S
  placements : AllEntries (fun _ places => ∀ p ∈ places, p.stamp ∈ S) c.placements
  index : AllEntries (fun key _ => (ofLex key).2 ∈ S) c.placementIndex
  ranged : AllEntries (fun id e => (id ∈ R ∨ ∃ stamp ∈ S, id = rangedId stamp) ∧ e.payload.Within S)
    c.ranged
  acl : AllEntries (fun id _ => id ∈ R ∨ ∃ stamp ∈ S, id = aclId stamp) c.acl

abbrev Content.Within (S : Set Stamp) (c : Content) : Prop := c.WithinBut ∅ S

/-! ### Sequences -/

namespace FugueList.Within

variable {V : Type} {l l' : FugueList V} {id : Stamp} {f : Option (Cell V) → Option (Cell V)}

theorem mono (h : l.Within S) (hS : S ⊆ S') : l.Within S' :=
  ⟨h.wf, fun id hId => hS (h.ids id hId)⟩

theorem new (id : ElementId) : (FugueList.new id : FugueList V).Within S := by
  refine ⟨wf_new id, fun x hx => absurd ?_ hx⟩
  have hDead : Runs.deadAnchorOf ∅ x = none := by
    rw [Runs.wf_empty.deadAnchorOf_eq_none]
    intro head run hHolds
    simp [Runs.Holds] at hHolds
  simp [cellAt, FugueList.new, hDead]

/-- One id changed, and it was held before or is in `S`. -/
theorem updates (h : l.Within S) (hUpdates : Updates l l' id f)
    (hId : l'.cellAt id ≠ none → l.cellAt id ≠ none ∨ id ∈ S) : l'.Within S := by
  refine ⟨hUpdates.wf, fun x hx => ?_⟩
  obtain rfl | hApart := eq_or_ne x id
  · obtain hOld | hIn := hId hx
    · exact h.ids x hOld
    · exact hIn
  · rw [hUpdates.cell, if_neg hApart] at hx
    exact h.ids x hx

theorem deleteId (h : l.Within S) (id : Stamp) : (l.deleteId id).Within S := by
  refine h.updates (h.wf.deleteId id) fun hHeld => .inl fun hNone => hHeld ?_
  rw [(h.wf.deleteId id).cell, if_pos rfl, hNone]
  rfl

theorem setMovedAway (h : l.Within S) (id : Stamp) (away : Bool) :
    (l.setMovedAway id away).Within S := by
  refine h.updates (h.wf.setMovedAway id away) fun hHeld => .inl fun hNone => hHeld ?_
  rw [(h.wf.setMovedAway id away).cell, if_pos rfl, hNone]
  rfl

theorem setDisplaced (h : l.Within S) (away : Bool) :
    ({ l with displaced := away } : FugueList V).Within S :=
  ⟨⟨h.wf.runs, h.wf.apart⟩, h.ids⟩

variable [SeqValue V]

theorem insertAt (h : l.Within S) (hId : id ∈ S) (value : V) (anchor : Anchor) :
    (l.insertAt id value anchor).Within S :=
  h.updates (h.wf.insertAt id value anchor) fun _ => .inr hId

theorem rejoin (h : l.Within S) (hId : id ∈ S) (value : V) (anchor : Anchor) :
    (l.rejoin id value anchor).Within S :=
  h.updates (h.wf.rejoin id value anchor) fun _ => .inr hId

theorem reseat (h : l.Within S) (hId : id ∈ S) (value : V) (anchor : Anchor) :
    (l.reseat id value anchor).Within S :=
  h.updates (h.wf.reseat id value anchor) fun _ => .inr hId

end FugueList.Within

/-! ### Slots -/

namespace LwwMap.Within

variable {m : LwwMap} {stamp : Stamp}

theorem mono (h : m.Within S) (hS : S ⊆ S') : m.Within S' :=
  AllEntries.mono h fun _ _ he => ⟨hS he.stamp, fun made hMade => hS (he.create made hMade),
    fun r hr => hS (he.register r hr)⟩

theorem new (id : ElementId) : (LwwMap.new id).Within S := AllEntries.empty

theorem higher_within {a b : Option ContainerCreate} (ha : ∀ made, a = some made → made.stamp ∈ S)
    (hb : ∀ made, b = some made → made.stamp ∈ S) :
    ∀ made, higher a b = some made → made.stamp ∈ S := by
  intro made hMade
  unfold higher at hMade
  split at hMade
  · split at hMade
    · exact hb made hMade
    · exact ha made hMade
  · exact ha made hMade
  · exact hb made hMade

theorem createOf_within (value : Element) (hStamp : stamp ∈ S) :
    ∀ made, createOf value stamp = some made → made.stamp ∈ S := by
  intro made hMade
  unfold createOf at hMade
  split at hMade
  · obtain rfl := Option.some.inj hMade
    exact hStamp
  · cases hMade

theorem set (h : m.Within S) (key : Bytes) {value : Element} (hStamp : stamp ∈ S)
    (hValue : ∀ r, value = .register r → r.stamp ∈ S) : (m.set key value stamp).1.Within S := by
  have hCreate := createOf_within value hStamp
  have hRegister : ∀ r, some value = some (.register r) → r.stamp ∈ S :=
    fun r hr => hValue r (Option.some.inj hr)
  unfold LwwMap.set
  split
  · exact AllEntries.insert h ⟨hStamp, hCreate, hRegister⟩
  next prior hPrior =>
    have hOld := h key prior hPrior
    have hRanked := higher_within hOld.create hCreate
    dsimp only
    split
    · exact AllEntries.insert h ⟨hOld.stamp, hRanked, hOld.register⟩
    · split
      · exact AllEntries.insert h ⟨hStamp, hRanked, hOld.register⟩
      · exact AllEntries.insert h ⟨hStamp, hRanked, hRegister⟩

theorem delete (h : m.Within S) (key : Bytes) (hStamp : stamp ∈ S) :
    (m.delete key stamp).1.Within S := by
  unfold LwwMap.delete
  split
  · exact AllEntries.insert h ⟨hStamp, by rintro _ ⟨⟩, by rintro _ ⟨⟩⟩
  next prior hPrior =>
    split
    · exact h
    · exact AllEntries.insert h ⟨hStamp, (h key prior hPrior).create, by rintro _ ⟨⟩⟩

theorem setRegister (h : m.Within S) (key : Bytes) (value : Scalar) (hStamp : stamp ∈ S) :
    (m.setRegister key value stamp).1.Within S := by
  unfold LwwMap.setRegister
  split
  next last r container hSlot =>
    have hOld := h key _ hSlot
    have hLast : max last stamp ∈ S := by
      obtain hMax | hMax := max_choice last stamp
      · rw [hMax]
        exact hOld.stamp
      · rw [hMax]
        exact hStamp
    refine AllEntries.insert h ⟨hLast, hOld.create, ?_⟩
    intro written hWritten
    obtain rfl := Element.register.inj (Option.some.inj hWritten)
    unfold Register.set
    split
    · exact hStamp
    · exact hOld.register r rfl
  next =>
    apply h.set key hStamp
    intro r hr
    obtain rfl := Element.register.inj hr
    exact hStamp

end LwwMap.Within

/-! ### The move log -/

namespace TreeMoves

variable {m : TreeMoves} {stamp : Stamp} {child parent : ElementId}

theorem stamp_of_mem_redoAll {ops : List LogOp} {op : LogOp} (h : op ∈ (m.redoAll ops).log) :
    op ∈ m.log ∨ ∃ done ∈ ops, op.stamp = done.stamp := by
  induction ops generalizing m with
  | nil => exact .inl h
  | cons first ops ih =>
    obtain hNow | ⟨done, hDone, hSame⟩ := ih h
    · obtain hOld | hNew := List.mem_append.mp hNow
      · exact .inl hOld
      · rw [List.mem_singleton.mp hNew]
        exact .inr ⟨first, List.mem_cons_self, rfl⟩
    · exact .inr ⟨done, List.mem_cons_of_mem _ hDone, hSame⟩

theorem stamp_of_mem_apply {op : LogOp} (h : op ∈ (m.apply stamp child parent).log) :
    op.stamp = stamp ∨ ∃ old ∈ m.log, op.stamp = old.stamp := by
  unfold apply at h
  split at h
  · exact .inr ⟨op, h, rfl⟩
  · obtain hNow | ⟨done, hDone, hSame⟩ := stamp_of_mem_redoAll h
    · obtain hOld | hNew := List.mem_append.mp hNow
      · exact .inr ⟨op, (List.takeWhile_prefix _).subset hOld, rfl⟩
      · rw [List.mem_singleton.mp hNew]
        exact .inl rfl
    · exact .inr ⟨done, (List.dropWhile_sublist _).subset hDone, hSame⟩

theorem stamp_of_mem_remove {op : LogOp} (h : op ∈ (m.remove stamp child parent).log) :
    ∃ old ∈ m.log, op.stamp = old.stamp := by
  unfold remove at h
  split at h
  · obtain hOld | ⟨done, hDone, hSame⟩ := stamp_of_mem_redoAll h
    · exact ⟨op, (List.takeWhile_prefix _).subset hOld, rfl⟩
    · exact ⟨done, (List.dropWhile_sublist _).subset (List.mem_of_mem_tail hDone), hSame⟩
  · exact ⟨op, h, rfl⟩

theorem log_setBase (m : TreeMoves) (child parent : ElementId) :
    (m.setBase child parent).log = m.log := by
  unfold setBase
  split <;> rfl

end TreeMoves

/-! ### Mutations of the content -/

namespace Content.WithinBut

variable {R : Set ElementId} {c : Content} {stamp : Stamp}

theorem mono (h : c.WithinBut R S) (hS : S ⊆ S') : c.WithinBut R S' where
  maps := h.maps.mono fun _ _ hm => hm.mono hS
  lists := h.lists.mono fun _ _ hl => hl.mono hS
  texts := h.texts.mono fun _ _ ht => ht.mono hS
  moves op hOp := hS (h.moves op hOp)
  placements := h.placements.mono fun _ _ hPlaces p hp => hS (hPlaces p hp)
  index := h.index.mono fun _ _ hKey => hS hKey
  ranged := by
    refine h.ranged.mono fun id e he => ⟨he.1.imp_right ?_, ?_⟩
    · rintro ⟨stamp, hStamp, hId⟩
      exact ⟨stamp, hS hStamp, hId⟩
    · have hPayload := he.2
      cases hKind : e.payload with
      | scalar value stamp =>
        rw [hKind] at hPayload
        exact hS hPayload
      | composite kind => trivial
  acl := by
    refine h.acl.mono fun id e he => he.imp_right ?_
    rintro ⟨stamp, hStamp, hId⟩
    exact ⟨stamp, hS hStamp, hId⟩

theorem new : Content.new.WithinBut R S where
  maps := AllEntries.empty.insert (.new ROOT_ID)
  lists := .empty
  texts := .empty
  moves := fun _ hOp => absurd hOp List.not_mem_nil
  placements := .empty
  index := .empty
  ranged := .empty
  acl := .empty

section Registries

theorem modifyMaps (h : c.WithinBut R S) (id : ElementId) {f : LwwMap → LwwMap}
    (hf : ∀ m, m.Within S → (f m).Within S) :
    ({ c with maps := c.maps.modify id f } : Content).WithinBut R S :=
  { h with maps := h.maps.modify id fun _ m hm => hf m hm }

theorem modifyLists (h : c.WithinBut R S) (id : ElementId) {f : FugueList Element → FugueList Element}
    (hf : ∀ l, l.Within S → (f l).Within S) :
    ({ c with lists := c.lists.modify id f } : Content).WithinBut R S :=
  { h with lists := h.lists.modify id fun _ l hl => hf l hl }

theorem modifyTexts (h : c.WithinBut R S) (id : ElementId) {f : FugueList Element → FugueList Element}
    (hf : ∀ l, l.Within S → (f l).Within S) :
    ({ c with texts := c.texts.modify id f } : Content).WithinBut R S :=
  { h with texts := h.texts.modify id fun _ l hl => hf l hl }

theorem setDisplaced (h : c.WithinBut R S) (away : Bool) (e : Element) :
    (c.setDisplaced away e).WithinBut R S := by
  have hMap : ∀ {c : Content}, c.WithinBut R S → ∀ id, (c.setMapDisplaced id away).WithinBut R S :=
    fun h id => h.modifyMaps id fun _ hm => hm
  have hList : ∀ {c : Content}, c.WithinBut R S → ∀ id, (c.setListDisplaced id away).WithinBut R S :=
    fun h id => h.modifyLists id fun _ hl => hl.setDisplaced away
  unfold Content.setDisplaced
  split
  · exact hMap h _
  · exact hList h _
  · exact h.modifyTexts _ fun _ hl => hl.setDisplaced away
  · exact { h with }
  · split
    · exact h
    · dsimp only
      split
      · split
        · apply hList
          apply hMap
          exact { h with }
        · apply hList
          exact { h with }
      · split
        · apply hMap
          exact { h with }
        · exact { h with }
  · split
    · exact h
    · dsimp only
      split
      · apply hList
        exact { h with }
      · exact { h with }
  · exact h

theorem putMap (h : c.WithinBut R S) (id : ElementId) {written : LwwMap × Option Element}
    (hWritten : written.1.Within S) : (c.putMap id written).WithinBut R S := by
  have hPut : ({ c with maps := c.maps.insert id written.1 } : Content).WithinBut R S :=
    { h with maps := h.maps.insert hWritten }
  unfold Content.putMap
  dsimp only
  split
  · exact hPut.setDisplaced _ _
  · exact hPut

theorem installAt (h : c.WithinBut R S) (map : ElementId) {m : LwwMap} (hm : m.Within S) (key : Bytes)
    (kind : ElementKind) (id : ElementId) (hStamp : stamp ∈ S) :
    (c.installAt map m key (.handle kind id) stamp).WithinBut R S := by
  have hNoRegister : ∀ r, Element.handle kind id = .register r → r.stamp ∈ S := by
    rintro _ ⟨⟩
  have hPut := h.putMap map (hm.set key hStamp hNoRegister)
  unfold Content.installAt
  dsimp only
  split
  · exact hPut.setDisplaced _ _
  · exact hPut.setDisplaced _ _

theorem setBase (h : c.WithinBut R S) (child parent : ElementId) :
    ({ c with moves := c.moves.setBase child parent } : Content).WithinBut R S := by
  refine { h with moves := fun op hOp => h.moves op ?_ }
  rw [← TreeMoves.log_setBase c.moves child parent]
  exact hOp

theorem link (h : c.WithinBut R S) (child parent : ElementId) : (c.link child parent).WithinBut R S := by
  have hParents : ({ c with parents := c.parents.insert child parent } : Content).WithinBut R S := { h with }
  exact hParents.setBase child parent

theorem registerMap (h : c.WithinBut R S) (id : ElementId) : (c.registerMap id).WithinBut R S :=
  { h with maps := h.maps.insertIfNew (.new id) }

theorem registerList (h : c.WithinBut R S) (id : ElementId) : (c.registerList id).WithinBut R S :=
  { h with lists := h.lists.insertIfNew (.new id) }

theorem register (h : c.WithinBut R S) (id : ElementId) (kind : Container) :
    (c.register id kind).WithinBut R S := by
  cases kind with
  | map => exact h.registerMap id
  | list => exact h.registerList id
  | text => exact { h with texts := h.texts.insertIfNew (.new id) }
  | xmlElement tag =>
    have hElement : ∀ fresh, ({ c with xmlElements := c.xmlElements.insertIfNew id fresh } :
        Content).WithinBut R S := fun fresh => { h with }
    have hHalves := fun fresh => ((hElement fresh).registerMap (XmlElement.attrsId id)).registerList
      (XmlElement.childrenId id)
    refine { hHalves _ with moves := fun op hOp => h.moves op ?_ }
    unfold Content.register at hOp
    dsimp only at hOp
    rw [TreeMoves.log_setBase, TreeMoves.log_setBase] at hOp
    exact hOp
  | xmlFragment =>
    have hFragment : ∀ fresh, ({ c with xmlFragments := c.xmlFragments.insertIfNew id fresh } :
        Content).WithinBut R S := fun fresh => { h with }
    exact ((hFragment _).registerList _).link _ _

theorem createContainer (h : c.WithinBut R S) (map : ElementId) (key : Bytes) (kind : Container)
    (hStamp : stamp ∈ S) : (c.createContainer map key stamp kind).WithinBut R S := by
  unfold Content.createContainer
  split
  · exact h
  · dsimp only
    have hRegistered := h.register (containerId map key kind) kind
    split
    · exact hRegistered
    next m hm =>
      exact (hRegistered.installAt map (hRegistered.maps map m hm) key _ _ hStamp).link _ _

theorem installPayload (h : c.WithinBut R S) (ranged : ElementId) (kind : ElementKind) :
    (c.installPayload ranged kind).WithinBut R S := by
  unfold Content.installPayload
  dsimp only
  split
  · exact (h.register _ _).link _ _
  · exact (h.register _ _).link _ _
  · exact (h.register _ _).link _ _
  · exact h

theorem setAway (h : c.WithinBut R S) (p : Placement) (away : Bool) : (c.setAway p away).WithinBut R S :=
  h.modifyLists _ fun _ hl => hl.setMovedAway _ _

theorem refoldMoves (h : c.WithinBut R S) : c.refoldMoves.WithinBut R S := by
  have hFold : ∀ (rows : List (Placement × Bool)) {c : Content}, c.WithinBut R S →
      (rows.foldl (fun c row => c.setAway row.1 row.2) c).WithinBut R S := by
    intro rows
    induction rows with
    | nil => exact fun h => h
    | cons row rows ih => exact fun h => ih (h.setAway row.1 row.2)
  have hFolded := hFold (c.governed.flatMap fun row => c.suppressions row.2.1 row.2.2) h
  exact { hFolded with }

theorem withdraw (h : c.WithinBut R S) (taken : Stamp) (child parent : ElementId) :
    ({ c with moves := c.moves.remove taken child parent } : Content).WithinBut R S := by
  refine { h with moves := fun op hOp => ?_ }
  obtain ⟨old, hOld, hSame⟩ := TreeMoves.stamp_of_mem_remove hOp
  rw [hSame]
  exact h.moves old hOld

theorem pushPlacement (h : c.WithinBut R S) (node list : ElementId) (hStamp : stamp ∈ S) :
    (c.pushPlacement node ⟨list, stamp⟩).WithinBut R S := by
  refine { h with placements := h.placements.insert ?_ }
  intro p hp
  obtain hOld | hNew := List.mem_append.mp hp
  · cases hPlaces : c.placements[node]? with
    | none =>
      rw [hPlaces] at hOld
      cases hOld
    | some places =>
      rw [hPlaces] at hOld
      exact h.placements node places hPlaces p hOld
  · rw [List.mem_singleton.mp hNew]
    exact hStamp

end Registries

variable [IdBytes]

theorem seatClaim (h : c.WithinBut R S) (claim : Claim) (list : ElementId) (element : Element)
    (anchor : Anchor) (hStamp : stamp ∈ S) :
    (c.seatClaim claim list stamp element anchor).WithinBut R S := by
  cases claim with
  | fresh => exact h.modifyLists _ fun _ hl => hl.insertAt hStamp _ _
  | joined => exact h.modifyLists _ fun _ hl => hl.rejoin hStamp _ _
  | evicted => exact h.modifyLists _ fun _ hl => hl.reseat hStamp _ _
  | refused => exact h

omit [IdBytes] in
theorem evictPlacement (h : c.WithinBut R S) (list held : ElementId) (taken : Stamp) :
    (c.evictPlacement list taken held).WithinBut R S := by
  have hRest : ∀ {c : Content}, c.WithinBut R S → ∀ {places}, c.placements[held]? = some places →
      AllEntries (fun _ places => ∀ p ∈ places, p.stamp ∈ S) (c.placements.insert held
        (places.filter fun p : Placement => !(p.list = list && p.stamp = taken))) := by
    intro c h places hPlaces
    refine h.placements.insert fun p hp => ?_
    exact h.placements held places hPlaces p (List.mem_of_mem_filter hp)
  unfold Content.evictPlacement
  cases c.parents[list]? with
  | none =>
    dsimp only
    split
    · exact h
    next places hPlaces =>
      split
      · exact { h with placements := hRest h hPlaces }
      · exact { h with placements := h.placements.erase held }
  | some owner =>
    have hWithdrawn := h.withdraw taken held owner
    dsimp only
    split
    · exact hWithdrawn
    next places hPlaces =>
      split
      · exact { hWithdrawn with placements := hRest hWithdrawn hPlaces }
      · exact { hWithdrawn with placements := h.placements.erase held }

theorem claimPlacement (h : c.WithinBut R S) (list node : ElementId) (hStamp : stamp ∈ S) :
    (c.claimPlacement list stamp node).2.WithinBut R S := by
  unfold Content.claimPlacement
  dsimp only
  split
  · exact { h with index := h.index.insert hStamp }
  next held _ =>
    split
    · exact h
    · split
      · exact h
      · have hEvicted := h.evictPlacement list held stamp
        exact { hEvicted with index := hEvicted.index.insert hStamp }

theorem settleBirth (h : c.WithinBut R S) (claim : Claim) (list child : ElementId) (element : Element)
    (anchor : Anchor) (hStamp : stamp ∈ S) :
    (let c := c.seatClaim claim list stamp element anchor
      let c := match claim with
        | .refused =>
          if c.placements.contains child then c
          else { c with revealedPending := insert child c.revealedPending }
        | .joined => c
        | .fresh | .evicted =>
          { c.pushPlacement child ⟨list, stamp⟩ with
            revealedPending := c.revealedPending.erase child }
      let c := match c.parents[list]? with
        | some owner => { c with moves := c.moves.setBase child owner }
        | none => c
      match claim with
      | .joined | .evicted => c.refoldMoves
      | .fresh | .refused => c).WithinBut R S := by
  have hSeated := h.seatClaim claim list element anchor hStamp
  have hLinked : ∀ {c : Content}, c.WithinBut R S → (match c.parents[list]? with
      | some owner => ({ c with moves := c.moves.setBase child owner } : Content)
      | none => c).WithinBut R S := by
    intro c h
    split
    · exact h.setBase _ _
    · exact h
  have hPushed := hSeated.pushPlacement child list hStamp
  cases claim with
  | fresh =>
    apply hLinked
    exact { hPushed with }
  | joined => exact (hLinked hSeated).refoldMoves
  | evicted =>
    apply refoldMoves
    apply hLinked
    exact { hPushed with }
  | refused =>
    apply hLinked
    dsimp only
    split
    · exact hSeated
    · exact { hSeated with }

theorem insertXmlChild (h : c.WithinBut R S) (list : ElementId) (tag : Option Bytes) (anchor : Anchor)
    (hStamp : stamp ∈ S) : (c.insertXmlChild list tag anchor stamp).WithinBut R S := by
  have hBorn : ∀ child container, ({ c.register child container with
      parents := (c.register child container).parents.insert child list } : Content).WithinBut R S := by
    intro child container
    have hRegistered := h.register child container
    exact { hRegistered with }
  unfold Content.insertXmlChild
  split
  · exact h
  · cases tag with
    | none => exact settleBirth ((hBorn _ _).claimPlacement list _ hStamp) _ _ _ _ _ hStamp
    | some tag => exact settleBirth ((hBorn _ _).claimPlacement list _ hStamp) _ _ _ _ _ hStamp

theorem applyMove (h : c.WithinBut R S) (dest node : ElementId) (anchor : Anchor) (hStamp : stamp ∈ S) :
    (c.applyMove dest node anchor stamp).WithinBut R S := by
  have hMoved : ∀ {c : Content}, c.WithinBut R S → ∀ owner pending,
      ({ c with moves := c.moves.apply stamp node owner, revealedPending := pending } :
        Content).refoldMoves.WithinBut R S := by
    intro c h owner pending
    apply refoldMoves
    refine { h with moves := fun op hOp => ?_ }
    obtain hSame | ⟨old, hOld, hSame⟩ := TreeMoves.stamp_of_mem_apply hOp
    · rw [hSame]
      exact hStamp
    · rw [hSame]
      exact h.moves old hOld
  unfold Content.applyMove
  split
  · exact h
  · split
    next owner element _ _ =>
      have hClaimed := h.claimPlacement dest node hStamp
      generalize c.claimPlacement dest stamp node = settled at hClaimed
      obtain ⟨claim, c'⟩ := settled
      have hSeated := hClaimed.seatClaim claim dest element anchor hStamp
      have hPushed := hSeated.pushPlacement node dest hStamp
      cases claim with
      | refused => exact hClaimed
      | joined => exact hMoved hSeated _ _
      | fresh | evicted => exact hMoved hPushed _ _
    next => exact h

omit [IdBytes] in
theorem applyReveal (h : c.WithinBut R S) (node : ElementId) (tag : Option Bytes) :
    (c.applyReveal node tag).WithinBut R S := by
  unfold Content.applyReveal
  split
  · exact h
  · have hRegistered := fun container => h.register node container
    exact { hRegistered _ with }

omit [IdBytes] in
theorem deleteFromList (h : c.WithinBut R S) (list : ElementId) (id : Stamp) :
    (c.deleteFromList list id).WithinBut R S := by
  have hDeleted : (c.onList list fun l => l.deleteId id).WithinBut R S :=
    h.modifyLists _ fun _ hl => hl.deleteId id
  unfold Content.deleteFromList
  dsimp only
  split
  · exact hDeleted.refoldMoves
  · exact hDeleted

omit [IdBytes] in
theorem createRanged (h : c.WithinBut R S) (start stop : RangeAnchor) (payload : RangedInit)
    (name : Option Bytes) (hStamp : stamp ∈ S) :
    (c.createRanged stamp start stop payload name).WithinBut R S := by
  unfold Content.createRanged
  dsimp only
  split
  · exact h
  · cases payload with
    | scalar value =>
      exact { h with ranged := h.ranged.insert ⟨.inr ⟨stamp, hStamp, rfl⟩, hStamp⟩ }
    | composite kind =>
      have hPayload := h.installPayload (rangedId stamp) kind
      exact { hPayload with ranged := hPayload.ranged.insert ⟨.inr ⟨stamp, hStamp, rfl⟩, trivial⟩ }

omit [IdBytes] in
theorem applyCounter (h : c.WithinBut R S) (map : ElementId) (key : Bytes) (delta : Counter → Counter)
    (hStamp : stamp ∈ S) : (c.applyCounter map key stamp delta).WithinBut R S := by
  unfold Content.applyCounter
  split
  · exact h
  next m hm =>
    apply installAt
    · exact { h with }
    · exact h.maps map m hm
    · exact hStamp

omit [IdBytes] in
theorem onMap (h : c.WithinBut R S) (map : ElementId) {write : LwwMap → LwwMap × Option Element}
    (hWrite : ∀ m, m.Within S → (write m).1.Within S) : (c.onMap map write).WithinBut R S := by
  unfold Content.onMap
  split
  · exact h
  next m hm => exact h.putMap map (hWrite m (h.maps map m hm))

theorem insertRun {l : FugueList Element} (hl : l.Within S) (base : Stamp) (s : List Char) :
    ∀ k anchor, (∀ i < s.length, base.runMember (k + i) ∈ S) →
      (Content.insertRun base k s anchor l).Within S := by
  induction s generalizing l with
  | nil => exact fun _ _ _ => hl
  | cons char s ih =>
    intro k anchor hRun
    have hFirst : base.runMember k ∈ S := hRun 0 (by simp)
    apply ih (hl.insertAt hFirst _ _)
    intro i hi
    have hNext := hRun (i + 1) (by simpa using hi)
    rwa [← Nat.add_assoc, Nat.add_right_comm] at hNext

omit [IdBytes] in
theorem deleteIds {l : FugueList Element} (hl : l.Within S) (ids : List Stamp) :
    (Content.deleteIds ids l).Within S := by
  unfold Content.deleteIds
  induction ids generalizing l with
  | nil => exact hl
  | cons id ids ih => exact ih (hl.deleteId id)

/-- A mutation adds only what it reserves. -/
theorem applyKind (h : c.WithinBut R S) (target : ElementId) (kind : OpKind) (author : ClientId)
    (hStamp : stamp ∈ S) (hRun : ∀ k < span kind, stamp.runMember k ∈ S) :
    (c.applyKind target kind stamp author).WithinBut R S := by
  cases kind with
  | listInsert value anchor => exact h.modifyLists _ fun _ hl => hl.insertAt hStamp _ _
  | listDelete id => exact h.deleteFromList target id
  | xmlInsertChild tag anchor => exact h.insertXmlChild target tag anchor hStamp
  | xmlMove node anchor => exact h.applyMove target node anchor hStamp
  | xmlReveal node tag => exact h.applyReveal node tag
  | rangedCreate start stop payload name => exact h.createRanged start stop payload name hStamp
  | rangedSetPayload id value =>
    refine { h with ranged := h.ranged.modify id fun id e he => ⟨he.1, ?_⟩ }
    have hPayload := he.2
    unfold RangedEntry.setPayload
    split
    · split
      · exact hStamp
      · exact hPayload
    · exact hPayload
  | rangedDelete id => exact { h with ranged := h.ranged.modify id fun _ _ he => he }
  | aclGrant subject grant effect scope grantor =>
    exact { h with acl := h.acl.insertIfNew (.inr ⟨stamp, hStamp, rfl⟩) }
  | aclRevoke id => exact { h with acl := h.acl.modify id fun _ _ he => he }
  | textInsert s anchor =>
    refine h.modifyTexts _ fun _ ht => insertRun ht stamp s 0 anchor fun i hi => ?_
    rw [Nat.zero_add]
    exact hRun i (hi.trans_le (le_max_left _ _))
  | textDelete ids => exact h.modifyTexts _ fun _ ht => deleteIds ht ids
  | mapCreate key => exact h.createContainer target key .map hStamp
  | listCreate key => exact h.createContainer target key .list hStamp
  | textCreate key => exact h.createContainer target key .text hStamp
  | xmlElementCreate key tag => exact h.createContainer target key (.xmlElement tag) hStamp
  | xmlFragmentCreate key => exact h.createContainer target key .xmlFragment hStamp
  | counterInc key amount => exact h.applyCounter target key (fun n => n.inc author amount) hStamp
  | counterDec key amount => exact h.applyCounter target key (fun n => n.dec author amount) hStamp
  | mapSet key value => exact h.onMap target fun _ hm => hm.set key hStamp (by rintro _ ⟨⟩)
  | mapDelete key => exact h.onMap target fun _ hm => hm.delete key hStamp
  | registerSet key value => exact h.onMap target fun _ hm => hm.setRegister key value hStamp

end Content.WithinBut

/-! ### The stamps held -/

theorem stampKey_inj {a b : Stamp} (ha : a.lamport ≤ u64Max) (hb : b.lamport ≤ u64Max)
    (h : stampKey a = stampKey b) : a.lamport = b.lamport ∧ a.client = b.client := by
  have hWidth : u64Max < 256 ^ 8 := by decide
  obtain ⟨hLamport, hClient⟩ := List.append_inj h (by rw [leBytes_length, leBytes_length])
  exact ⟨leBytes_inj (ha.trans_lt hWidth) (hb.trans_lt hWidth) hLamport,
    ClientId.asBytes_injective hClient⟩

theorem FugueList.cellAt_of_contains {V : Type} {l : FugueList V} {id : Stamp}
    (h : l.contains id = true) : l.cellAt id ≠ none := by
  intro hNone
  obtain ⟨hNode, hDead⟩ := cellAt_eq_none.mp hNone
  unfold contains at h
  obtain hIn | hIn := Bool.or_eq_true_iff.mp h
  · rw [ExtTreeMap.contains_eq_isSome_getElem?, hNode] at hIn
    cases hIn
  · unfold Runs.deadAnchorOf at hDead
    cases hRun : Runs.deadRun l.dead id with
    | none =>
      rw [hRun] at hIn
      cases hIn
    | some run =>
      rw [hRun] at hDead
      dsimp only at hDead
      split at hDead <;> cases hDead

/-- A stamp held anywhere in the content. An annotation and an authorization tuple hold
theirs in the id derived from it. -/
inductive Content.Holds (c : Content) : Stamp → Prop
  | listed {list : ElementId} {l : FugueList Element} {id : Stamp} (hList : c.lists[list]? = some l)
      (hId : l.contains id = true) : Holds c id
  | written {text : ElementId} {t : FugueList Element} {id : Stamp} (hText : c.texts[text]? = some t)
      (hId : t.contains id = true) : Holds c id
  | slot {map : ElementId} {m : LwwMap} {key : Bytes} {e : Entry} (hMap : c.maps[map]? = some m)
      (hSlot : m.slots[key]? = some e) : Holds c e.stamp
  | create {map : ElementId} {m : LwwMap} {key : Bytes} {e : Entry} {made : ContainerCreate}
      (hMap : c.maps[map]? = some m) (hSlot : m.slots[key]? = some e)
      (hMade : e.container = some made) : Holds c made.stamp
  | register {map : ElementId} {m : LwwMap} {key : Bytes} {e : Entry} {r : Register}
      (hMap : c.maps[map]? = some m) (hSlot : m.slots[key]? = some e)
      (hValue : e.value = some (.register r)) : Holds c r.stamp
  | moved {op : LogOp} (hOp : op ∈ c.moves.log) : Holds c op.stamp
  | placed {node : ElementId} {places : List Placement} {p : Placement}
      (hPlaces : c.placements[node]? = some places) (hp : p ∈ places) : Holds c p.stamp
  | indexed {list node : ElementId} {stamp : Stamp}
      (hIndex : c.placementIndex[Content.placementKey list stamp]? = some node) : Holds c stamp
  | payload {id : ElementId} {e : RangedEntry} {value : Scalar} {stamp : Stamp}
      (hRanged : c.ranged[id]? = some e) (hPayload : e.payload = .scalar value stamp) : Holds c stamp
  | annotation {stamp : Stamp} {e : RangedEntry} (hLamport : stamp.lamport ≤ u64Max)
      (hRanged : c.ranged[rangedId stamp]? = some e) : Holds c stamp
  | tuple {stamp : Stamp} {e : AclEntry} (hLamport : stamp.lamport ≤ u64Max)
      (hAcl : c.acl[aclId stamp]? = some e) : Holds c stamp

/-- What is held is in `S`, up to the offset a derived id does not spell. -/
theorem Content.Within.of_holds {c : Content} {stamp : Stamp} (h : c.Within S)
    (hS : ∀ s ∈ S, s.lamport ≤ u64Max) (hHolds : c.Holds stamp) :
    ∃ s ∈ S, s.lamport = stamp.lamport ∧ s.client = stamp.client := by
  cases hHolds with
  | listed hList hId =>
    exact ⟨stamp, (h.lists _ _ hList).ids stamp (FugueList.cellAt_of_contains hId), rfl, rfl⟩
  | written hText hId =>
    exact ⟨stamp, (h.texts _ _ hText).ids stamp (FugueList.cellAt_of_contains hId), rfl, rfl⟩
  | slot hMap hSlot => exact ⟨_, (h.maps _ _ hMap _ _ hSlot).stamp, rfl, rfl⟩
  | create hMap hSlot hMade => exact ⟨_, (h.maps _ _ hMap _ _ hSlot).create _ hMade, rfl, rfl⟩
  | register hMap hSlot hValue => exact ⟨_, (h.maps _ _ hMap _ _ hSlot).register _ hValue, rfl, rfl⟩
  | moved hOp => exact ⟨_, h.moves _ hOp, rfl, rfl⟩
  | placed hPlaces hp => exact ⟨_, h.placements _ _ hPlaces _ hp, rfl, rfl⟩
  | indexed hIndex => exact ⟨stamp, h.index _ _ hIndex, rfl, rfl⟩
  | payload hRanged hPayload =>
    have hIn := (h.ranged _ _ hRanged).2
    rw [hPayload] at hIn
    exact ⟨stamp, hIn, rfl, rfl⟩
  | annotation hLamport hRanged =>
    obtain ⟨(hNone | ⟨s, hs, hId⟩), -⟩ := h.ranged _ _ hRanged
    · cases hNone
    obtain ⟨-, hKey, -⟩ := ElementId.derive.inj hId
    obtain ⟨hSame, hClient⟩ := stampKey_inj hLamport (hS s hs) hKey
    exact ⟨s, hs, hSame.symm, hClient.symm⟩
  | tuple hLamport hAcl =>
    obtain hNone | ⟨s, hs, hId⟩ := h.acl _ _ hAcl
    · cases hNone
    obtain ⟨-, hKey, -⟩ := ElementId.derive.inj hId
    obtain ⟨hSame, hClient⟩ := stampKey_inj hLamport (hS s hs) hKey
    exact ⟨s, hs, hSame.symm, hClient.symm⟩

end CrdtSync
