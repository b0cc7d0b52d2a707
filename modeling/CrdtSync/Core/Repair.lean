import CrdtSync.Core.SchemaClosure
import CrdtSync.Core.ValidateExact

/-!
# Read-time invariant repair

How what a schema finds wrong with a document reads once it is put right: a number at the bound it
is past, a sequence without its newest items, a node that does not belong as absent, loose text in
a block made up around it. Nothing stored changes, and every value is one already in state.
-/

namespace CrdtSync

open Lib

namespace FugueList

/-- The live item at an index. -/
def get (l : FugueList Element) (index : Nat) : Option Element := (l.nodeAt index).bind l.nodeValue

def nodeIds (l : FugueList Element) (index count : Nat) : List Stamp :=
  (l.liveOrder.drop index).take count

/-- What is shown is held. -/
theorem exists_nodeValue_of_mem_liveOrder {l : FugueList Element} {id : Stamp}
    (h : id ∈ l.liveOrder) : ∃ value, l.nodeValue id = some value := by
  obtain ⟨span, -, hShown⟩ := List.mem_filterMap.mp h
  cases span with
  | dead head len => cases hShown
  | node other =>
    dsimp only at hShown
    split at hShown
    · cases hShown
    next hLive =>
      obtain rfl := Option.some.inj hShown
      unfold hidden at hLive
      unfold nodeValue
      cases hNode : l.nodes[seqKey other]? with
      | none => simp [hNode] at hLive
      | some n => exact ⟨n.value, rfl⟩

theorem getElem?_values (l : FugueList Element) (index : Nat) : l.values[index]? = l.get index := by
  have hHeld : ∀ ids : List Stamp, (∀ id ∈ ids, ∃ value, l.nodeValue id = some value) →
      ∀ i : Nat, (ids.filterMap l.nodeValue)[i]? = ids[i]?.bind l.nodeValue := by
    intro ids
    induction ids with
    | nil => exact fun _ i => rfl
    | cons id ids ih =>
      intro hAll i
      obtain ⟨value, hValue⟩ := hAll id List.mem_cons_self
      rw [List.filterMap_cons_some hValue]
      cases i with
      | zero => exact hValue.symm
      | succ i => exact ih (fun id hId => hAll id (List.mem_cons_of_mem _ hId)) i
  exact hHeld _ (fun _ hId => exists_nodeValue_of_mem_liveOrder hId) index

end FugueList

namespace Validate

/-- How an element that does not conform reads once repaired. -/
inductive RepairKind
  | clamped (value : Int)
  | truncated (keep : List Nat)
  | dropped
  | wrapped (block : String) (id : ElementId)
deriving DecidableEq

structure Repair where
  path : List Step
  kind : RepairKind
deriving DecidableEq

/-- A repaired reading wherever it sits: survivors by their stamps, a wrapper and an annotation by
their ids. -/
inductive RepairId
  | clamp (path : List Step) (value : Int)
  | keep (path : List Step) (survivors : List Stamp)
  | drop (path : List Step)
  | wrap (id : ElementId)
  | dropRanged (id : ElementId)
deriving DecidableEq

def stepInto (c : Content) : Element → Step → Option Element
  | .handle .map id, .key k => (c.mapOf id).get k
  | .handle .list id, .index i => (c.listOf id).get i
  | .handle .xmlElement id, .key k => (c.attrsOf id).get k
  | .handle .xmlElement id, .index i => (c.childrenOf .xmlElement id).get i
  | .handle .xmlFragment id, .index i => (c.childrenOf .xmlFragment id).get i
  | _, _ => none

def elementAt (c : Content) (path : List Step) : Option Element :=
  path.foldlM (stepInto c) (.handle .map ROOT_ID)

/-- The live node ids of a list or text, in sequence order. -/
def sequenceNodeIds (c : Content) : Element → Option (List Stamp)
  | .handle .list id => some ((c.listOf id).nodeIds 0 (c.listOf id).len)
  | .handle .text id => some ((c.textOf id).nodeIds 0 (c.textOf id).len)
  | _ => none

/-- The indices that survive truncating to `max`: all but the newest, in ascending order. -/
def survivors (ids : List Stamp) (max : Nat) : List Nat :=
  if ids.length ≤ max then List.range ids.length
  else
    let byRecency := ids.zipIdx.insertionSort fun a b => b.1 ≤ a.1
    ((byRecency.drop (ids.length - max)).map Prod.snd).insertionSort (· ≤ ·)

section Repairs

variable (c : Content) (schema : Schema)

def keyedRepair (v : Violation) : Option (Repair × RepairId) :=
  match v.kind with
  | .belowMin _ min => some (⟨v.path, .clamped min⟩, .clamp v.path min)
  | .aboveMax _ max => some (⟨v.path, .clamped max⟩, .clamp v.path max)
  | .tooLong _ max => do
    let ids ← sequenceNodeIds c (← elementAt c v.path)
    let keep := survivors ids max
    some (⟨v.path, .truncated keep⟩, .keep v.path (keep.filterMap fun i => ids[i]?))
  | .disallowedAttr | .mistypedAttr _ _ | .disallowedChild | .excessChild _ =>
    some (⟨v.path, .dropped⟩, .drop v.path)
  | .crossZoneAnchor id => some (⟨v.path, .dropped⟩, .dropRanged id)
  | .orphanInline block => do
    let orphan ← elementAt c v.path
    -- The id of a scalar is a panic, and no scalar is an orphan.
    let id := ElementId.derive (← orphan.id) (asBytes block) .xmlElement
    some (⟨v.path, .wrapped block id⟩, .wrap id)
  | .kindMismatch _ _ | .unknownSlot => none

variable [IdBytes]

def keyedRepairs : List (Repair × RepairId) := (validate c schema).filterMap (keyedRepair c)

/-- How every element that does not conform reads repaired, in the order of `validate`. -/
def repairs : List Repair := (keyedRepairs c schema).map Prod.fst

end Repairs

/-! ### The survivors -/

section Survivors

variable {ids : List Stamp} {max : Nat}

theorem survivors_sorted (ids : List Stamp) (max : Nat) : (survivors ids max).Pairwise (· < ·) := by
  unfold survivors
  split
  · exact List.pairwise_lt_range
  · dsimp only
    have hNodup : ((ids.zipIdx.map Prod.snd)).Nodup := by
      rw [List.zipIdx_map_snd]
      exact List.nodup_range'
    have hPerm := (List.perm_insertionSort (fun a b : Stamp × Nat => b.1 ≤ a.1) ids.zipIdx).map Prod.snd
    have hKept : (((ids.zipIdx.insertionSort fun a b => b.1 ≤ a.1).drop (ids.length - max)).map
        Prod.snd).Nodup :=
      (hPerm.nodup_iff.mpr hNodup).sublist ((List.drop_sublist _ _).map _)
    have hSorted := List.pairwise_insertionSort (· ≤ ·)
      (((ids.zipIdx.insertionSort fun a b => b.1 ≤ a.1).drop (ids.length - max)).map Prod.snd)
    have hDistinct := (List.perm_insertionSort (· ≤ ·) _).nodup_iff.mpr hKept
    exact (hSorted.and hDistinct).imp fun h => lt_of_le_of_ne h.1 h.2

theorem mem_survivors_lt {i : Nat} (h : i ∈ survivors ids max) : i < ids.length := by
  unfold survivors at h
  split at h
  · exact List.mem_range.mp h
  · dsimp only at h
    rw [List.mem_insertionSort] at h
    obtain ⟨entry, hEntry, rfl⟩ := List.mem_map.mp h
    have hMem := (List.mem_insertionSort _).mp (List.mem_of_mem_drop hEntry)
    exact (List.getElem?_eq_some_iff.mp (List.mem_zipIdx_iff_getElem?.mp hMem)).1

/-- As many survive as may. -/
theorem length_survivors (ids : List Stamp) (max : Nat) :
    (survivors ids max).length = min max ids.length := by
  unfold survivors
  split
  · rw [List.length_range]
    omega
  · dsimp only
    rw [List.length_insertionSort, List.length_map, List.length_drop, List.length_insertionSort,
      List.length_zipIdx]
    omega

/-- None that survives is newer than one that does not. -/
theorem survivors_oldest {i j : Nat} {a b : Stamp} (hKept : i ∈ survivors ids max)
    (hDropped : j ∉ survivors ids max) (hi : ids[i]? = some a) (hj : ids[j]? = some b) : a ≤ b := by
  have hBound := (List.getElem?_eq_some_iff.mp hj).1
  unfold survivors at hKept hDropped
  split at hKept
  next hShort =>
    rw [if_pos hShort] at hDropped
    exact absurd (List.mem_range.mpr hBound) hDropped
  next hLong =>
    rw [if_neg hLong] at hDropped
    dsimp only at hKept hDropped
    rw [List.mem_insertionSort, List.mem_map] at hKept hDropped
    generalize hSort : (ids.zipIdx.insertionSort fun a b => b.1 ≤ a.1) = sorted at hKept hDropped
    have hSorted : sorted.Pairwise fun a b => b.1 ≤ a.1 := by
      rw [← hSort]
      exact List.pairwise_insertionSort ..
    have hAt : (b, j) ∈ sorted := by
      rw [← hSort, List.mem_insertionSort]
      exact List.mem_zipIdx_iff_getElem?.mpr hj
    obtain ⟨⟨a', i'⟩, hEntry, rfl⟩ := hKept
    have hSame : a' = a := by
      have hMem := List.mem_of_mem_drop hEntry
      rw [← hSort, List.mem_insertionSort, List.mem_zipIdx_iff_getElem?] at hMem
      exact Option.some.inj (hMem.symm.trans hi)
    -- The dropped one stands before the cut and the kept one after it.
    rw [← List.take_append_drop (ids.length - max) sorted] at hSorted hAt
    obtain hBefore | hAfter := List.mem_append.mp hAt
    · rw [← hSame]
      exact (List.pairwise_append.mp hSorted).2.2 _ hBefore _ hEntry
    · exact absurd ⟨(b, j), hAfter, rfl⟩ hDropped

end Survivors

/-! ### Where a violation leads -/

theorem mem_entries {m : LwwMap} {key : Bytes} {child : Element} (h : (key, child) ∈ m.entries) :
    m.get key = some child := by
  obtain ⟨slot, hSlot, hValue⟩ := List.mem_filterMap.mp h
  obtain ⟨value, hHeld, hPair⟩ := Option.map_eq_some_iff.mp hValue
  cases hPair
  rw [LwwMap.get, mem_toList_iff.mp hSlot]
  exact hHeld

section Located

variable {c : Content} {schema : Schema} {path : List Step}

theorem elementAt_append (c : Content) (path : List Step) (step : Step) :
    elementAt c (path ++ [step]) = (elementAt c path).bind fun element => stepInto c element step := by
  unfold elementAt
  rw [List.foldlM_append]
  cases path.foldlM (stepInto c) (.handle .map ROOT_ID) with
  | none => rfl
  | some element => simp

theorem elementAt_step {element child : Element} {step : Step} (hAt : elementAt c path = some element)
    (hStep : stepInto c element step = some child) : elementAt c (path ++ [step]) = some child := by
  rw [elementAt_append, hAt, Option.bind_some, hStep]

theorem stepInto_child {kind : ElementKind} {id : ElementId} {i : Nat} {tag : Option String}
    {children : List (String × Option Nat)} {attrs : List (String × String)} {marks : List String}
    {orphan : Option String} (hKind : kind = expectedKind (.xml tag children attrs marks orphan)) :
    stepInto c (.handle kind id) (.index i) = (c.childrenOf kind id).get i := by
  cases tag with
  | none =>
    subst hKind
    rfl
  | some tag =>
    subst hKind
    rfl

theorem elementAt_of_governed {ty : String} {element : Element}
    (h : Governed c schema path ty element) : elementAt c path = some element := by
  induction h with
  | root => rfl
  | slot _ _ hEntry _ ih => exact elementAt_step ih (mem_entries hEntry)
  | item _ _ hAt ih => exact elementAt_step ih ((FugueList.getElem?_values _ _).symm.trans hAt)
  | attr _ _ hEntry _ _ ih => exact elementAt_step ih (mem_entries hEntry)
  | child _ _ hKind hAt _ _ ih =>
    exact elementAt_step ih
      ((stepInto_child hKind).trans ((FugueList.getElem?_values _ _).symm.trans hAt))

end Located

/-! ### What a repair reads -/

section Mends

/-- The bounds of a number. -/
def range : TypeDef → Option (Option Int × Option Int)
  | .register min max | .counter min max => some (min, max)
  | _ => none

def numberOf (c : Content) : Element → Option Int
  | .register r => match r.value with
    | .int v => some v
    | _ => none
  | .handle .counter id => some (c.counterValue id)
  | _ => none

def InBounds (bounds : Option Int × Option Int) (v : Int) : Prop :=
  (∀ min ∈ bounds.1, min ≤ v) ∧ ∀ max ∈ bounds.2, v ≤ max

/-- A number in bounds, and no other closer to the one it stands for. -/
structure Nearest (bounds : Option Int × Option Int) (v nearest : Int) : Prop where
  inBounds : InBounds bounds nearest
  closest : ∀ w, InBounds bounds w → (v - nearest).natAbs ≤ (v - w).natAbs

/-- The oldest items of a sequence in their order, as many as may stay. -/
structure Oldest (ids : List Stamp) (max : Nat) (keep : List Nat) : Prop where
  ascending : keep.Pairwise (· < ·)
  indices : ∀ i ∈ keep, i < ids.length
  most : keep.length = min max ids.length
  older : ∀ i ∈ keep, ∀ j, j ∉ keep → ∀ a b, ids[i]? = some a → ids[j]? = some b → a ≤ b

theorem oldest_survivors (ids : List Stamp) (max : Nat) : Oldest ids max (survivors ids max) :=
  ⟨survivors_sorted ids max, fun _ => mem_survivors_lt, length_survivors ids max,
    fun _ hi _ hj _ _ => survivors_oldest hi hj⟩

/-- What stands where nothing like it may. -/
def ViolationKind.misplaced : ViolationKind → Bool
  | .disallowedAttr | .mistypedAttr _ _ | .disallowedChild | .excessChild _ => true
  | _ => false

/-- A repair puts a violation right, as its kind asks. -/
inductive Mends (c : Content) (schema : Schema) : Violation → Repair → Prop
  | clamped {path : List Step} {kind : ViolationKind} {ty : String} {element : Element} {td : TypeDef}
      {bounds : Option Int × Option Int} {v nearest : Int} : Governed c schema path ty element →
      schema.typeDef ty = some td → range td = some bounds → numberOf c element = some v →
      kind = .belowMin v nearest ∨ kind = .aboveMax v nearest → ¬InBounds bounds v →
      Nearest bounds v nearest →
      Mends c schema ⟨path, kind⟩ ⟨path, .clamped nearest⟩
  | truncated {path : List Step} {ty : String} {element : Element} {td : TypeDef} {ids : List Stamp}
      {len max : Nat} {keep : List Nat} : Governed c schema path ty element →
      schema.typeDef ty = some td → (td = .text (some max) ∨ ∃ items, td = .list items (some max)) →
      sequenceNodeIds c element = some ids → Oldest ids max keep →
      Mends c schema ⟨path, .tooLong len max⟩ ⟨path, .truncated keep⟩
  | dropped {path : List Step} {kind : ViolationKind} {element : Element} :
      kind.misplaced = true → path ≠ [] → elementAt c path = some element →
      Mends c schema ⟨path, kind⟩ ⟨path, .dropped⟩
  | unanchored {id : ElementId} {entry : RangedEntry} : c.ranged[id]? = some entry →
      entry.tombstone = false → Mends c schema ⟨[], .crossZoneAnchor id⟩ ⟨[], .dropped⟩
  | wrapped {path : List Step} {block : String} {orphan : ElementId} : path ≠ [] →
      elementAt c path = some (.handle .text orphan) → (schema.typeDef block).isSome →
      Mends c schema ⟨path, .orphanInline block⟩
        ⟨path, .wrapped block (.derive orphan (asBytes block) .xmlElement)⟩

end Mends

def ViolationKind.repairable : ViolationKind → Bool
  | .kindMismatch _ _ | .unknownSlot => false
  | _ => true

section Exact

variable {c : Content} {schema : Schema} {path : List Step}

theorem nearest_min {min : Int} {max : Option Int} {v : Int} (hBelow : v < min)
    (hRange : Schema.InRange (some min) max) : Nearest (some min, max) v min := by
  refine ⟨⟨fun b hb => ?_, fun b hb => hRange min rfl b hb⟩, fun w hw => ?_⟩
  · cases hb
    exact le_rfl
  · have hMin := hw.1 min rfl
    omega

theorem nearest_max {min : Option Int} {max : Int} {v : Int} (hAbove : max < v)
    (hRange : Schema.InRange min (some max)) : Nearest (min, some max) v max := by
  refine ⟨⟨fun b hb => hRange b hb max rfl, fun b hb => ?_⟩, fun w hw => ?_⟩
  · cases hb
    exact le_rfl
  · have hMax := hw.2 max rfl
    omega

theorem clamps_of_checkBounds {element : Element} {ty : String} {td : TypeDef}
    {min max : Option Int} {v : Int} {kind : ViolationKind}
    (hGoverned : Governed c schema path ty element) (hType : schema.typeDef ty = some td)
    (hTd : range td = some (min, max)) (hRange : Schema.InRange min max)
    (hNumber : numberOf c element = some v) (hOut : checkBounds v min max = some kind) :
    ∃ r, keyedRepair c ⟨path, kind⟩ = some r ∧ Mends c schema ⟨path, kind⟩ r.1 := by
  unfold checkBounds at hOut
  split at hOut
  next lower hLower =>
    cases hOut
    obtain ⟨rfl, hBelow⟩ := Option.filter_eq_some_iff.mp hLower
    have hBelow : v < lower := by simpa using hBelow
    refine ⟨_, rfl, .clamped hGoverned hType hTd hNumber (.inl rfl) (fun hIn => ?_)
      (nearest_min hBelow hRange)⟩
    have := hIn.1 lower rfl
    omega
  next =>
    obtain ⟨upper, hUpper, rfl⟩ := Option.map_eq_some_iff.mp hOut
    obtain ⟨rfl, hAbove⟩ := Option.filter_eq_some_iff.mp hUpper
    have hAbove : upper < v := by simpa using hAbove
    refine ⟨_, rfl, .clamped hGoverned hType hTd hNumber (.inr rfl) (fun hIn => ?_)
      (nearest_max hAbove hRange)⟩
    have := hIn.2 upper rfl
    omega

/-- What a length check reports has a repair that keeps the oldest. -/
theorem truncates_of_checkMaxLen {element : Element} {ty : String} {td : TypeDef} {len : Nat}
    {max : Option Nat} {ids : List Stamp} {kind : ViolationKind}
    (hGoverned : Governed c schema path ty element) (hType : schema.typeDef ty = some td)
    (hTd : td = .text max ∨ ∃ items, td = .list items max)
    (hIds : sequenceNodeIds c element = some ids) (hOut : checkMaxLen len max = some kind) :
    ∃ r, keyedRepair c ⟨path, kind⟩ = some r ∧ Mends c schema ⟨path, kind⟩ r.1 := by
  unfold checkMaxLen at hOut
  split at hOut
  next most =>
    split at hOut
    · cases hOut
      refine ⟨(⟨path, .truncated (survivors ids most)⟩,
        .keep path ((survivors ids most).filterMap fun i => ids[i]?)), ?_,
        .truncated hGoverned hType hTd hIds (oldest_survivors ids most)⟩
      unfold keyedRepair
      dsimp only
      rw [elementAt_of_governed hGoverned, Option.bind_eq_bind, Option.bind_some, hIds]
      rfl
    · cases hOut
  · cases hOut

theorem mends_of_own {element : Element} {ty : String} {td : TypeDef} {kind : ViolationKind}
    (hSchema : schema.Closed) (hGoverned : Governed c schema path ty element)
    (hType : schema.typeDef ty = some td) (hOwn : ownViolation c td element = some kind) :
    ∃ r, keyedRepair c ⟨path, kind⟩ = some r ∧ Mends c schema ⟨path, kind⟩ r.1 := by
  have hDef : Schema.IsDef td := by
    obtain ⟨entry, hFind, rfl⟩ := Option.map_eq_some_iff.mp hType
    exact hSchema.defs entry (List.mem_of_find?_eq_some hFind)
  unfold ownViolation at hOwn
  split at hOwn
  next items max id => exact truncates_of_checkMaxLen hGoverned hType (.inr ⟨items, rfl⟩) rfl hOwn
  next max id => exact truncates_of_checkMaxLen hGoverned hType (.inl rfl) rfl hOwn
  next min max r =>
    split at hOwn
    next v hValue =>
      refine clamps_of_checkBounds hGoverned hType rfl hDef ?_ hOwn
      rw [numberOf, hValue]
    · cases hOwn
  next min max id => exact clamps_of_checkBounds hGoverned hType rfl hDef rfl hOwn
  · cases hOwn

/-- What stands under an element at a place can be read as absent. -/
theorem mends_dropped {kind : ViolationKind} {element child : Element} {step : Step}
    (hMisplaced : kind.misplaced = true) (hAt : elementAt c path = some element) (hStep : stepInto c element step = some child)
    {id : RepairId} (hKeyed : keyedRepair c ⟨path ++ [step], kind⟩ =
      some (⟨path ++ [step], .dropped⟩, id)) :
    ∃ r, keyedRepair c ⟨path ++ [step], kind⟩ = some r ∧ Mends c schema ⟨path ++ [step], kind⟩ r.1 :=
  ⟨_, hKeyed, .dropped hMisplaced (by simp) (elementAt_step hAt hStep)⟩

theorem kind_eq_text {element : Element} (h : element.kind = .text) :
    ∃ id, element = .handle .text id := by
  cases element with
  | scalar value => cases h
  | register r => cases h
  | handle kind id =>
    obtain rfl : kind = .text := h
    exact ⟨id, rfl⟩

/-- A child that fits nothing is dropped, or wrapped where it is loose text. -/
theorem mends_misfit {child : Element} {orphan : Option String} {i : Nat}
    (hBlock : ∀ block ∈ orphan, (schema.typeDef block).isSome)
    (hAt : elementAt c (path ++ [.index i]) = some child) :
    ∃ r, keyedRepair c ⟨path ++ [.index i], misfit orphan child⟩ = some r ∧
      Mends c schema ⟨path ++ [.index i], misfit orphan child⟩ r.1 := by
  have hPath : path ++ [.index i] ≠ [] := by simp
  unfold misfit
  split
  next block =>
    split
    next hText =>
      obtain ⟨id, rfl⟩ := kind_eq_text hText
      let wrapper : ElementId := .derive id (asBytes block) .xmlElement
      refine ⟨(⟨_, .wrapped block wrapper⟩, .wrap wrapper), ?_,
        .wrapped hPath hAt (hBlock block rfl)⟩
      unfold keyedRepair
      dsimp only
      rw [hAt]
      rfl
    · exact ⟨_, rfl, .dropped rfl hPath hAt⟩
  · exact ⟨_, rfl, .dropped rfl hPath hAt⟩

/-- Everything wrong in the tree but a kind and a slot has a repair. -/
theorem mends_of_violates (hSchema : schema.Closed) {kind : ViolationKind}
    (h : Violates c schema path kind) (hRepairable : kind.repairable = true) :
    ∃ r, keyedRepair c ⟨path, kind⟩ = some r ∧ Mends c schema ⟨path, kind⟩ r.1 := by
  cases h with
  | mismatch => cases hRepairable
  | unknownSlot => cases hRepairable
  | own hGoverned hType _ hOwn => exact mends_of_own hSchema hGoverned hType hOwn
  | disallowedAttr hGoverned _ hEntry =>
    exact mends_dropped rfl (elementAt_of_governed hGoverned) (mem_entries hEntry) rfl
  | mistypedAttr hGoverned _ hEntry =>
    exact mends_dropped rfl (elementAt_of_governed hGoverned) (mem_entries hEntry) rfl
  | excessChild hGoverned _ hKind hBound =>
    exact mends_dropped rfl (elementAt_of_governed hGoverned) ((stepInto_child hKind).trans
      ((FugueList.getElem?_values _ _).symm.trans (List.getElem?_eq_getElem hBound))) rfl
  | misfit hGoverned hType hKind hAt =>
    refine mends_misfit (fun block hBlock => ?_) (elementAt_step (elementAt_of_governed hGoverned)
      ((stepInto_child hKind).trans ((FugueList.getElem?_values _ _).symm.trans hAt)))
    obtain ⟨entry, hFind, hEntry⟩ := Option.map_eq_some_iff.mp hType
    have hDeclared := hSchema.refs entry (List.mem_of_find?_eq_some hFind) (.type block) (by
      rw [hEntry]
      exact List.mem_append_right _ (List.mem_map.mpr ⟨block, Option.mem_toList.mpr hBlock, rfl⟩))
    unfold Schema.declares at hDeclared
    obtain ⟨declared, hMem, hName⟩ := List.mem_map.mp (of_decide_eq_true hDeclared)
    rw [Schema.typeDef, Option.isSome_map, List.find?_isSome]
    exact ⟨declared, hMem, by simpa using hName⟩

theorem forall₂_repairs {violations : List Violation}
    (h : ∀ v ∈ violations, v.kind.repairable = true →
      ∃ r, keyedRepair c v = some r ∧ Mends c schema v r.1) :
    List.Forall₂ (Mends c schema) (violations.filter fun v => v.kind.repairable)
      ((violations.filterMap (keyedRepair c)).map Prod.fst) := by
  induction violations with
  | nil => exact .nil
  | cons v violations ih =>
    have hRest := ih fun w hw => h w (List.mem_cons_of_mem _ hw)
    by_cases hRepairable : v.kind.repairable = true
    · obtain ⟨r, hKeyed, hMends⟩ := h v List.mem_cons_self hRepairable
      rw [List.filter_cons_of_pos (p := fun v : Violation => v.kind.repairable) hRepairable,
        List.filterMap_cons_some hKeyed, List.map_cons]
      exact .cons hMends hRest
    · have hNone : keyedRepair c v = none := by
        unfold keyedRepair
        cases hKind : v.kind <;> rw [hKind] at hRepairable <;>
      first | rfl | exact absurd rfl hRepairable
      rw [List.filter_cons_of_neg (p := fun v : Violation => v.kind.repairable) hRepairable,
        List.filterMap_cons_none hNone]
      exact hRest

/-- Under a schema the parser accepts everything wrong but a kind and an unknown slot is repaired,
in the order it is reported, and each repair puts its violation right: a number is the nearest in
bounds, a sequence keeps the oldest items it may, what does not belong is absent, and loose text is
in a declared block that is the same on every replica. -/
theorem repairs_mend [IdBytes] (src : String) (schema : Schema) (c : Content)
    (hParse : Schema.parse src = .ok schema) :
    List.Forall₂ (Mends c schema) ((validate c schema).filter fun v => v.kind.repairable)
      (repairs c schema) := by
  have hSchema : schema.Closed := (Schema.gives_parse src).of_ok hParse
  refine forall₂_repairs fun v hv hRepairable => ?_
  obtain hTree | hAnchor := List.mem_append.mp hv
  · exact mends_of_violates hSchema (violates_of_mem_out hTree) hRepairable
  · unfold Validator.checkCrossZoneAnchors rangedElements at hAnchor
    split at hAnchor
    · cases hAnchor
    · obtain ⟨entry, hEntry, rfl⟩ := List.mem_map.mp hAnchor
      have hLive := (List.mem_insertionSort _).mp (List.mem_of_mem_filter hEntry)
      have hHeld := mem_toList_iff.mp (List.mem_of_mem_filter hLive)
      refine ⟨_, rfl, .unanchored hHeld ?_⟩
      simpa using (List.mem_filter.mp hLive).2

end Exact

section Example

local instance repairIdBytes : IdBytes := IdBytes.spelled

/-- A counter three below its lower bound. -/
def lowCounter : Content :=
  Content.new.applyKind ROOT_ID (.counterDec (asBytes "n") 3) ⟨1, ⟨1⟩, 0⟩ ⟨1⟩

theorem repairs_mend_lowCounter :
    List.Forall₂ (Mends lowCounter Schema.counterSchema)
        ((validate lowCounter Schema.counterSchema).filter fun v => v.kind.repairable)
        (repairs lowCounter Schema.counterSchema) ∧
      repairs lowCounter Schema.counterSchema = [⟨[.key (asBytes "n")], .clamped 0⟩] :=
  ⟨repairs_mend Schema.counterSource Schema.counterSchema lowCounter Schema.parse_counterSource,
    by decide +kernel⟩

end Example

end Validate

end CrdtSync
