import CrdtSync.Core.Diff

/-!
# What a diff reports

The walk in lockstep reports every slot that was added, removed or changed at its path, nothing
else, and in the order of paths. A document nested in itself is the only one it does not end on.
-/

namespace CrdtSync

open Lib

namespace Diff

section Rules

variable (old new : Content)

def slotsOf (c : Content) : Element → Option LwwMap
  | .handle .map id => some (c.mapOf id)
  | .handle .xmlElement id => some (c.attrsOf id)
  | _ => none

/-- The items of a list, or of an XML node's children. -/
def itemsOf (c : Content) : Element → Option (FugueList Element)
  | .handle .list id => some (c.listOf id)
  | .handle .xmlElement id => some (c.childrenOf .xmlElement id)
  | .handle .xmlFragment id => some (c.childrenOf .xmlFragment id)
  | _ => none

def tagAt (c : Content) : Element → Option Bytes
  | .handle .xmlElement id => c.tagOf id
  | _ => none

/-- The same kind of thing, under the same tag. -/
def Alike (a b : Element) : Prop := a.kind = b.kind ∧ tagAt old a = tagAt new b

/-- A longest run of the items of a sequence whose ids another has not. -/
def AbsentRun {α : Type} (seq other : List (Stamp × α)) (run : Nat × List α) : Prop :=
  ∃ before gathered after, seq = before ++ gathered ++ after ∧
    LongestRun (fun entry => entry.1 ∈ other.map Prod.fst) Prod.snd before gathered after 0 run

/-- What tells two elements of one kind apart by themselves: their value, or what one of two
sequences has and the other has not. -/
inductive Apart (path : List Bytes) : Element → Element → Change → Prop
  | value {a b : Element} {x y : Scalar} : scalarOf a = some x → scalarOf b = some y → x ≠ y →
      Apart path a b (.value path x y)
  | counter {i j : ElementId} : old.counterValue i ≠ new.counterValue j →
      Apart path (.handle .counter i) (.handle .counter j)
        (.counter path (old.counterValue i) (new.counterValue j))
  | deleted {a b : Element} {l m : FugueList Element} {run : Nat × List SeqItem} :
      itemsOf old a = some l → itemsOf new b = some m → AbsentRun (listSeq l) (listSeq m) run →
      Apart path a b (.listDelete path run.1 run.2)
  | inserted {a b : Element} {l m : FugueList Element} {run : Nat × List SeqItem} :
      itemsOf old a = some l → itemsOf new b = some m → AbsentRun (listSeq m) (listSeq l) run →
      Apart path a b (.listInsert path run.1 run.2)
  | erased {i j : ElementId} {run : Nat × List Char} :
      AbsentRun (charSeq (old.textOf i)) (charSeq (new.textOf j)) run →
      Apart path (.handle .text i) (.handle .text j) (.textDelete path run.1 run.2)
  | written {i j : ElementId} {run : Nat × List Char} :
      AbsentRun (charSeq (new.textOf j)) (charSeq (old.textOf i)) run →
      Apart path (.handle .text i) (.handle .text j) (.textInsert path run.1 run.2)

/-- What tells the slots at a path apart, there or at a path below. -/
inductive Tells : List Bytes → Option Element → Option Element → List Bytes → Change → Prop
  | added {path : List Bytes} {b : Element} : Tells path none (some b) path (.added path b.kind)
  | removed {path : List Bytes} {a : Element} : Tells path (some a) none path (.removed path a.kind)
  | replaced {path : List Bytes} {a b : Element} {change : Change} : ¬Alike old new a b →
      change ∈ replaced a b path → Tells path (some a) (some b) path change
  | apart {path : List Bytes} {a b : Element} {change : Change} : Alike old new a b →
      Apart old new path a b change → Tells path (some a) (some b) path change
  | slot {path path' : List Bytes} {a b : Element} {m n : LwwMap} {key : Bytes} {change : Change} :
      Alike old new a b → slotsOf old a = some m → slotsOf new b = some n →
      Tells (path ++ [key]) (m.get key) (n.get key) path' change →
      Tells path (some a) (some b) path' change

/-- An element is in a slot of another. -/
def Inside (c : Content) (child parent : Element) : Prop :=
  ∃ m key, slotsOf c parent = some m ∧ m.get key = some child

end Rules

variable {old new : Content} {path path' : List Bytes}

theorem Tells.under {a b : Option Element} {change : Change}
    (h : Tells old new path a b path' change) : path <+: path' := by
  induction h with
  | added | removed | replaced | apart => exact List.prefix_rfl
  | slot _ _ _ _ ih => exact (List.prefix_append _ _).trans ih

theorem le_of_below (h : path <+: path') : path ≤ path' := by
  obtain ⟨s, rfl⟩ := h
  cases s with
  | nil => rw [List.append_nil]
  | cons x s =>
    have hLt : path ++ [] < path ++ x :: s := List.append_left_lt List.Lex.nil
    rw [List.append_nil] at hLt
    exact hLt.le

theorem le_of_below_keys {key key' : Bytes} {q q' : List Bytes} (hKeys : key < key')
    (h : path ++ [key] <+: q) (h' : path ++ [key'] <+: q') : q ≤ q' := by
  obtain ⟨s, rfl⟩ := h
  obtain ⟨t, rfl⟩ := h'
  refine le_of_lt ?_
  rw [List.append_assoc, List.append_assoc]
  exact List.append_left_lt (List.Lex.rel hKeys)

/-! ### Sequences -/

section Sequences

variable {a b : Element} {change : Change}

theorem mem_absentRuns {α : Type} {seq other : List (Stamp × α)} {run : Nat × List α} :
    run ∈ absentRuns seq other ↔ AbsentRun seq other run :=
  mem_runs_iff

/-- Two sequences of items are told apart by the runs one of them lacks. -/
theorem apart_items_iff {l m : FugueList Element} (hl : itemsOf old a = some l)
    (hm : itemsOf new b = some m) : Apart old new path a b change ↔ change ∈ diffList l m path := by
  simp only [diffList, List.mem_append, List.mem_map, mem_absentRuns]
  constructor
  · intro hApart
    cases hApart with
    | value hx =>
      cases a with
      | scalar | register => cases hl
      | handle => cases hx
    | counter => cases hl
    | deleted hl' hm' hRun =>
      cases hl.symm.trans hl'
      cases hm.symm.trans hm'
      exact .inl ⟨_, hRun, rfl⟩
    | inserted hl' hm' hRun =>
      cases hl.symm.trans hl'
      cases hm.symm.trans hm'
      exact .inr ⟨_, hRun, rfl⟩
    | erased | written => cases hl
  · rintro (⟨run, hRun, rfl⟩ | ⟨run, hRun, rfl⟩)
    · exact .deleted hl hm hRun
    · exact .inserted hl hm hRun

theorem apart_text_iff {i j : ElementId} :
    Apart old new path (.handle .text i) (.handle .text j) change ↔
      change ∈ diffText (old.textOf i) (new.textOf j) path := by
  simp only [diffText, List.mem_append, List.mem_map, mem_absentRuns]
  constructor
  · intro hApart
    cases hApart with
    | value hx => cases hx
    | deleted hl | inserted hl => cases hl
    | erased hRun => exact .inl ⟨_, hRun, rfl⟩
    | written hRun => exact .inr ⟨_, hRun, rfl⟩
  · rintro (⟨run, hRun, rfl⟩ | ⟨run, hRun, rfl⟩)
    · exact .erased hRun
    · exact .written hRun

end Sequences

/-! ### One element -/

section Element

variable {a b : Element} {bs own : List Change}

theorem lists_replaced (h : ¬Alike old new a b) :
    Lists (· ≤ ·) (Tells old new path (some a) (some b)) (replaced a b path) := by
  refine (Lists.at le_refl path (replaced a b path)).congr fun q change => ?_
  constructor
  · intro hTells
    cases hTells with
    | replaced _ hIn => exact ⟨rfl, hIn⟩
    | apart hAlike => exact absurd hAlike h
    | slot hAlike => exact absurd hAlike h
  · rintro ⟨rfl, hIn⟩
    exact .replaced h hIn

/-- Elements without slots. -/
theorem lists_leaf (hAlike : Alike old new a b) (hNone : slotsOf old a = none)
    (hOwn : ∀ change, Apart old new path a b change ↔ change ∈ own) :
    Lists (· ≤ ·) (Tells old new path (some a) (some b)) own := by
  refine (Lists.at le_refl path own).congr fun q change => ?_
  constructor
  · intro hTells
    cases hTells with
    | replaced hNot => exact absurd hAlike hNot
    | apart _ hApart => exact ⟨rfl, (hOwn change).mp hApart⟩
    | slot _ hSlots =>
      rw [hNone] at hSlots
      cases hSlots
  · rintro ⟨rfl, hIn⟩
    exact .apart hAlike ((hOwn change).mpr hIn)

theorem lists_slots {m n : LwwMap} (hAlike : Alike old new a b) (hm : slotsOf old a = some m)
    (hn : slotsOf new b = some n) (hOwn : ∀ change, Apart old new path a b change ↔ change ∈ own)
    (hSlots : Lists (· ≤ ·) (fun q change => ∃ key,
      Tells old new (path ++ [key]) (m.get key) (n.get key) q change) bs) :
    Lists (· ≤ ·) (Tells old new path (some a) (some b)) (own ++ bs) := by
  refine (Lists.at le_refl path own).append hSlots ?_ fun q change => ?_
  · rintro q change q' change' ⟨rfl, -⟩ ⟨key, hTells⟩
    exact le_of_below ((List.prefix_append _ _).trans hTells.under)
  · constructor
    · intro hTells
      cases hTells with
      | replaced hNot => exact absurd hAlike hNot
      | apart _ hApart => exact .inl ⟨rfl, (hOwn change).mp hApart⟩
      | slot _ hm' hn' hSlot =>
        rw [hm] at hm'
        rw [hn] at hn'
        cases hm'
        cases hn'
        exact .inr ⟨_, hSlot⟩
    · rintro (⟨rfl, hIn⟩ | ⟨key, hTells⟩)
      · exact .apart hAlike ((hOwn change).mpr hIn)
      · exact .slot hAlike hm hn hTells

end Element

/-! ### Slots -/

section Slots

variable {elem : Element → Element → List Bytes → Option (List Change)} {m n : LwwMap}
  {out : List Change}

theorem isSome_get_iff {key : Bytes} : (m.get key).isSome ↔ key ∈ m.entries.map Prod.fst := by
  constructor
  · intro h
    obtain ⟨value, hValue⟩ := Option.isSome_iff_exists.mp h
    obtain ⟨slot, hSlot, hHeld⟩ := Option.bind_eq_some_iff.mp hValue
    refine List.mem_map.mpr ⟨(key, value), List.mem_filterMap.mpr ⟨(key, slot), ?_, ?_⟩, rfl⟩
    · exact mem_toList_iff.mpr hSlot
    · exact (congrArg (Option.map _) hHeld).trans rfl
  · intro h
    obtain ⟨entry, hEntry, rfl⟩ := List.mem_map.mp h
    rw [Validate.mem_entries hEntry]
    rfl

theorem mem_unionKeys {key : Bytes} :
    key ∈ unionKeys m n ↔ (m.get key).isSome ∨ (n.get key).isSome := by
  rw [unionKeys, List.mem_insertionSort, List.mem_dedup, List.map_append, List.mem_append,
    isSome_get_iff, isSome_get_iff]

theorem unionKeys_sorted (m n : LwwMap) : (unionKeys m n).Pairwise (· < ·) := by
  have hSorted := List.pairwise_insertionSort (· ≤ ·) ((m.entries ++ n.entries).map Prod.fst).dedup
  have hNodup :=
    (List.perm_insertionSort (· ≤ ·) ((m.entries ++ n.entries).map Prod.fst).dedup).nodup_iff.mpr
    (List.nodup_dedup _)
  exact (hSorted.and hNodup).imp fun h => lt_of_le_of_ne h.1 h.2

theorem lists_diffSlot {a b : Option Element}
    (hElem : ∀ a b path out, elem a b path = some out →
      Lists (· ≤ ·) (Tells old new path (some a) (some b)) out)
    (h : diffSlot elem a b path = some out) : Lists (· ≤ ·) (Tells old new path a b) out := by
  cases a with
  | none =>
    cases b with
    | none =>
      cases h
      exact .nil fun q change hTells => by cases hTells
    | some b =>
      cases h
      refine (Lists.single path (Change.added path b.kind)).congr fun q change => ?_
      constructor
      · intro hTells
        cases hTells
        exact ⟨rfl, rfl⟩
      · rintro ⟨rfl, rfl⟩
        exact .added
  | some a =>
    cases b with
    | none =>
      cases h
      refine (Lists.single path (Change.removed path a.kind)).congr fun q change => ?_
      constructor
      · intro hTells
        cases hTells
        exact ⟨rfl, rfl⟩
      · rintro ⟨rfl, rfl⟩
        exact .removed
    | some b => exact hElem a b path out h

theorem lists_blocks (hElem : ∀ a b path out, elem a b path = some out →
      Lists (· ≤ ·) (Tells old new path (some a) (some b)) out)
    {keys : List Bytes} (hSorted : keys.Pairwise (· < ·)) {blocks : List (List Change)}
    (h : keys.mapM (fun key => diffSlot elem (m.get key) (n.get key) (path ++ [key])) = some blocks) :
    Lists (· ≤ ·) (fun q change => ∃ key ∈ keys,
      Tells old new (path ++ [key]) (m.get key) (n.get key) q change) blocks.flatten := by
  induction keys generalizing blocks with
  | nil =>
    cases h
    refine .nil fun q change hSome => ?_
    obtain ⟨key, hKey, -⟩ := hSome
    cases hKey
  | cons key keys ih =>
    rw [List.mapM_cons] at h
    obtain ⟨block, hBlock, hRest⟩ := Option.bind_eq_some_iff.mp h
    obtain ⟨later, hLater, hBlocks⟩ := Option.bind_eq_some_iff.mp hRest
    cases hBlocks
    obtain ⟨hFirst, hSorted⟩ := List.pairwise_cons.mp hSorted
    refine (lists_diffSlot hElem hBlock).append (ih hSorted hLater) ?_ fun q change => ?_
    · rintro q change q' change' hTells ⟨key', hKey', hTells'⟩
      exact le_of_below_keys (hFirst key' hKey') hTells.under hTells'.under
    · rw [List.exists_mem_cons_iff]

theorem lists_diffMap (hElem : ∀ a b path out, elem a b path = some out →
      Lists (· ≤ ·) (Tells old new path (some a) (some b)) out)
    (h : diffMap elem m n path = some out) :
    Lists (· ≤ ·) (fun q change => ∃ key,
      Tells old new (path ++ [key]) (m.get key) (n.get key) q change) out := by
  obtain ⟨blocks, hBlocks, rfl⟩ := Option.map_eq_some_iff.mp h
  refine (lists_blocks hElem (unionKeys_sorted m n) hBlocks).congr fun q change => ?_
  refine exists_congr fun key => ⟨fun hTells => ⟨mem_unionKeys.mpr ?_, hTells⟩, And.right⟩
  generalize m.get key = a, n.get key = b at hTells ⊢
  cases hTells with
  | added => exact .inr rfl
  | removed | replaced | apart | slot => exact .inl rfl

end Slots

/-! ### The tree -/

theorem lists_diffElem {fuel : Nat} {a b : Element} {path : List Bytes} {out : List Change}
    (h : diffElem old new fuel a b path = some out) :
    Lists (· ≤ ·) (Tells old new path (some a) (some b)) out := by
  induction fuel generalizing a b path out with
  | zero => cases h
  | succ fuel ih =>
    have hElem : ∀ a b path out, diffElem old new fuel a b path = some out →
        Lists (· ≤ ·) (Tells old new path (some a) (some b)) out := fun _ _ _ _ => ih
    unfold diffElem at h
    split at h
    next hKinds =>
      cases h
      exact lists_replaced fun hAlike => hKinds hAlike.1
    next hKinds =>
      rw [not_not] at hKinds
      split at h
      next i j =>
        have hOwn : ∀ change, Apart old new path (.handle .map i) (.handle .map j) change ↔
            change ∈ ([] : List Change) := fun change => iff_of_false
          (fun hApart => by cases hApart <;> contradiction) List.not_mem_nil
        have hAlike : Alike old new (.handle .map i) (.handle .map j) := ⟨rfl, rfl⟩
        exact lists_slots hAlike rfl rfl hOwn (lists_diffMap hElem h)
      next i j =>
        have hOwn : ∀ change, Apart old new path (.handle .counter i) (.handle .counter j) change ↔
            change ∈ out := by
          intro change
          split at h
          next hNe =>
            cases h
            rw [List.mem_singleton]
            exact ⟨fun hApart => by cases hApart <;> first | rfl | contradiction,
              fun hEq => hEq ▸ .counter hNe⟩
          next hEq =>
            cases h
            exact iff_of_false (fun hApart => by cases hApart <;> contradiction) List.not_mem_nil
        exact lists_leaf ⟨rfl, rfl⟩ rfl hOwn
      next i j =>
        cases h
        exact lists_leaf ⟨rfl, rfl⟩ rfl fun change => apart_items_iff rfl rfl
      next i j =>
        cases h
        exact lists_leaf ⟨rfl, rfl⟩ rfl fun change => apart_text_iff
      next i j =>
        split at h
        next hTags =>
          cases h
          exact lists_replaced fun hAlike => hTags hAlike.2
        next hTags =>
          obtain ⟨attrs, hAttrs, hOut⟩ := Option.bind_eq_some_iff.mp h
          cases hOut
          have hAlike : Alike old new (.handle .xmlElement i) (.handle .xmlElement j) :=
            ⟨rfl, not_not.mp hTags⟩
          exact lists_slots hAlike rfl rfl (fun change => apart_items_iff rfl rfl)
            (lists_diffMap hElem hAttrs)
      next i j =>
        cases h
        exact lists_leaf ⟨rfl, rfl⟩ rfl fun change => apart_items_iff rfl rfl
      next hMap hCounter hList hText hXml hFragment =>
        have hHandle : ∀ kind id, a = .handle kind id → kind ≠ .scalar → kind ≠ .register →
            ∃ id', b = .handle kind id' := by
          rintro kind id rfl hScalar hRegister
          cases b with
          | scalar y => exact absurd hKinds hScalar
          | register r => exact absurd hKinds hRegister
          | handle kind' id' =>
            obtain rfl : kind = kind' := hKinds
            exact ⟨id', rfl⟩
        have hSlots : slotsOf old a = none := by
          unfold slotsOf
          split
          next i =>
            obtain ⟨j, rfl⟩ := hHandle _ i rfl (by decide) (by decide)
            exact absurd rfl (hMap i j rfl)
          next i =>
            obtain ⟨j, rfl⟩ := hHandle _ i rfl (by decide) (by decide)
            exact absurd rfl (hXml i j rfl)
          next => rfl
        have hItems : itemsOf old a = none := by
          unfold itemsOf
          split
          next i =>
            obtain ⟨j, rfl⟩ := hHandle _ i rfl (by decide) (by decide)
            exact absurd rfl (hList i j rfl)
          next i =>
            obtain ⟨j, rfl⟩ := hHandle _ i rfl (by decide) (by decide)
            exact absurd rfl (hXml i j rfl)
          next i =>
            obtain ⟨j, rfl⟩ := hHandle _ i rfl (by decide) (by decide)
            exact absurd rfl (hFragment i j rfl)
          next => rfl
        have hTags : tagAt old a = tagAt new b := by
          have hLeft : tagAt old a = none := by
            unfold tagAt
            split
            next i =>
              obtain ⟨j, rfl⟩ := hHandle _ i rfl (by decide) (by decide)
              exact absurd rfl (hXml i j rfl)
            next => rfl
          have hRight : tagAt new b = none := by
            unfold tagAt
            split
            next j =>
              cases a with
              | scalar x => cases hKinds
              | register r => cases hKinds
              | handle kind i =>
                obtain rfl : kind = .xmlElement := hKinds
                exact absurd rfl (hXml i j rfl)
            next => rfl
          rw [hLeft, hRight]
        -- All that is left to tell the two apart is a scalar.
        have hValue : ∀ change, Apart old new path a b change →
            ∃ x y, scalarOf a = some x ∧ scalarOf b = some y ∧ x ≠ y ∧ change = .value path x y := by
          intro change hApart
          cases hApart with
          | value hx hy hNe => exact ⟨_, _, hx, hy, hNe, rfl⟩
          | counter => exact absurd rfl (hCounter _ _ rfl)
          | deleted hl | inserted hl =>
            rw [hItems] at hl
            cases hl
          | erased | written => exact absurd rfl (hText _ _ rfl)
        refine lists_leaf ⟨hKinds, hTags⟩ hSlots fun change => ?_
        constructor
        · intro hApart
          obtain ⟨x, y, hx, hy, hNe, rfl⟩ := hValue change hApart
          rw [hx, hy] at h
          dsimp only at h
          rw [if_pos hNe] at h
          cases h
          exact List.mem_singleton_self _
        · intro hIn
          split at h
          next x y hx hy =>
            split at h
            next hNe =>
              cases h
              obtain rfl := List.mem_singleton.mp hIn
              exact .value hx hy hNe
            next => cases h; cases hIn
          next => cases h; cases hIn

theorem not_absentRun_self {α : Type} (seq : List (Stamp × α)) (run : Nat × List α) :
    ¬AbsentRun seq seq run := by
  rw [← mem_absentRuns, absentRuns,
    runs_eq_nil_iff.mpr ⟨rfl, fun _ hx => decide_eq_true (List.mem_map_of_mem hx)⟩]
  exact List.not_mem_nil

/-- Nothing tells a slot from itself. -/
theorem ne_of_tells {c : Content} {a b : Option Element} {change : Change}
    (h : Tells c c path a b path' change) : a ≠ b := by
  induction h with
  | added => exact fun hEq => by cases hEq
  | removed => exact fun hEq => by cases hEq
  | replaced hNot =>
    intro hEq
    cases hEq
    exact hNot ⟨rfl, rfl⟩
  | apart _ hApart =>
    intro hEq
    cases hEq
    cases hApart with
    | value hx hy hNe => exact hNe (Option.some.inj (hx.symm.trans hy))
    | counter hNe => exact hNe rfl
    | deleted hl hm hRun | inserted hl hm hRun =>
      obtain rfl := Option.some.inj (hl.symm.trans hm)
      exact not_absentRun_self _ _ hRun
    | erased hRun | written hRun => exact not_absentRun_self _ _ hRun
  | slot _ hm hn _ ih =>
    intro hEq
    cases hEq
    obtain rfl := Option.some.inj (hm.symm.trans hn)
    exact ih rfl

/-! ### The walk ends -/

section Ends

variable {elem elem' : Element → Element → List Bytes → Option (List Change)} {m n : LwwMap}
  {out : List Change}

/-- What a walk of the slots under some keys gives, a walk that gives at least as much gives. -/
theorem slots_mono (hElem : ∀ a b path out, elem a b path = some out → elem' a b path = some out)
    {keys : List Bytes} {blocks : List (List Change)}
    (hBlocks : keys.mapM (fun key => diffSlot elem (m.get key) (n.get key) (path ++ [key])) =
      some blocks) :
    keys.mapM (fun key => diffSlot elem' (m.get key) (n.get key) (path ++ [key])) = some blocks := by
  induction keys generalizing blocks with
  | nil => exact hBlocks
  | cons key keys ih =>
    rw [List.mapM_cons] at hBlocks ⊢
    obtain ⟨block, hBlock, hRest⟩ := Option.bind_eq_some_iff.mp hBlocks
    obtain ⟨later, hLater, hSame⟩ := Option.bind_eq_some_iff.mp hRest
    have hSlot : diffSlot elem' (m.get key) (n.get key) (path ++ [key]) = some block := by
      generalize m.get key = a, n.get key = b at hBlock ⊢
      cases a with
      | none => cases b <;> exact hBlock
      | some a =>
        cases b with
        | none => exact hBlock
        | some b => exact hElem _ _ _ _ hBlock
    rw [hSlot, Option.bind_eq_bind, Option.bind_some, ih hLater]
    exact hSame

theorem diffMap_mono (hElem : ∀ a b path out, elem a b path = some out → elem' a b path = some out)
    (h : diffMap elem m n path = some out) : diffMap elem' m n path = some out := by
  obtain ⟨blocks, hBlocks, rfl⟩ := Option.map_eq_some_iff.mp h
  exact Option.map_eq_some_iff.mpr ⟨blocks, slots_mono hElem hBlocks, rfl⟩

theorem diffElem_succ {fuel : Nat} {a b : Element} {path : List Bytes} {out : List Change}
    (h : diffElem old new fuel a b path = some out) :
    diffElem old new (fuel + 1) a b path = some out := by
  induction fuel generalizing a b path out with
  | zero => cases h
  | succ fuel ih =>
    have hElem : ∀ a b path out, diffElem old new fuel a b path = some out →
        diffElem old new (fuel + 1) a b path = some out := fun _ _ _ _ => ih
    unfold diffElem at h ⊢
    split
    next hKinds => rwa [if_pos hKinds] at h
    next hKinds =>
      rw [if_neg hKinds] at h
      split at h
      next i j => exact diffMap_mono hElem h
      next i j => exact h
      next i j => exact h
      next i j => exact h
      next i j =>
        split at h
        next hTags => rwa [if_pos hTags]
        next hTags =>
          rw [if_neg hTags]
          obtain ⟨attrs, hAttrs, hOut⟩ := Option.bind_eq_some_iff.mp h
          exact Option.bind_eq_some_iff.mpr ⟨attrs, diffMap_mono hElem hAttrs, hOut⟩
      next i j => exact h
      next hMap hCounter hList hText hXml hFragment =>
        exact h

theorem diffElem_mono {fuel fuel' : Nat} (hFuel : fuel ≤ fuel') {a b : Element} {path : List Bytes}
    {out : List Change} (h : diffElem old new fuel a b path = some out) :
    diffElem old new fuel' a b path = some out := by
  induction hFuel with
  | refl => exact h
  | step _ ih => exact diffElem_succ ih

theorem exists_diffMap (hEnds : ∀ key a, m.get key = some a →
      ∀ b path, ∃ fuel out, diffElem old new fuel a b path = some out) (path : List Bytes) :
    ∃ fuel out, diffMap (diffElem old new fuel) m n path = some out := by
  have hKeys : ∀ keys : List Bytes, ∃ fuel blocks, keys.mapM (fun key =>
      diffSlot (diffElem old new fuel) (m.get key) (n.get key) (path ++ [key])) = some blocks := by
    intro keys
    induction keys with
    | nil => exact ⟨0, [], rfl⟩
    | cons key keys ih =>
      obtain ⟨fuel, later, hLater⟩ := ih
      obtain ⟨fuel', block, hBlock⟩ : ∃ fuel' block,
          diffSlot (diffElem old new fuel') (m.get key) (n.get key) (path ++ [key]) = some block := by
        cases hGet : m.get key with
        | none => cases n.get key <;> exact ⟨0, _, rfl⟩
        | some a =>
          cases n.get key with
          | none => exact ⟨0, _, rfl⟩
          | some b => exact hEnds key a hGet b _
      have hMono {k k' : Nat} (hle : k ≤ k') (a b : Element) (path : List Bytes) (out : List Change)
          (h : diffElem old new k a b path = some out) : diffElem old new k' a b path = some out :=
        diffElem_mono hle h
      refine ⟨max fuel fuel', block :: later, ?_⟩
      rw [List.mapM_cons, slots_mono (hMono (le_max_left ..)) hLater]
      have hSlot : [key].mapM (fun key => diffSlot (diffElem old new fuel') (m.get key) (n.get key)
          (path ++ [key])) = some [block] := by
        rw [List.mapM_cons, hBlock]
        rfl
      have hSlot' := slots_mono (hMono (le_max_right fuel fuel')) hSlot
      rw [List.mapM_cons] at hSlot'
      obtain ⟨block', hBlock', hSame⟩ := Option.bind_eq_some_iff.mp hSlot'
      cases hSame
      rw [hBlock']
      rfl
  obtain ⟨fuel, blocks, hBlocks⟩ := hKeys (unionKeys m n)
  exact ⟨fuel, blocks.flatten, Option.map_eq_some_iff.mpr ⟨blocks, hBlocks, rfl⟩⟩

/-- Of elements that are not nested in themselves. -/
theorem exists_diffElem {a : Element} (h : Acc (Inside old) a) (b : Element) (path : List Bytes) :
    ∃ fuel out, diffElem old new fuel a b path = some out := by
  induction h generalizing b path with
  | intro a _ ih =>
    have hSlots (m n : LwwMap) (hm : slotsOf old a = some m) (path : List Bytes) :
        ∃ fuel out, diffMap (diffElem old new fuel) m n path = some out :=
      exists_diffMap (fun key child hChild b path => ih child ⟨m, key, hm, hChild⟩ b path) path
    by_cases hKinds : a.kind = b.kind
    · by_cases hMap : ∃ i j, a = .handle .map i ∧ b = .handle .map j
      · obtain ⟨i, j, rfl, rfl⟩ := hMap
        obtain ⟨fuel, out, hOut⟩ := hSlots (old.mapOf i) (new.mapOf j) rfl path
        exact ⟨fuel + 1, out, hOut⟩
      by_cases hXml : ∃ i j, a = .handle .xmlElement i ∧ b = .handle .xmlElement j
      · obtain ⟨i, j, rfl, rfl⟩ := hXml
        obtain ⟨fuel, attrs, hAttrs⟩ := hSlots (old.attrsOf i) (new.attrsOf j) rfl path
        refine ⟨fuel + 1, ?_⟩
        unfold diffElem
        dsimp only
        rw [if_neg (not_not.mpr hKinds), hAttrs]
        split <;> exact ⟨_, rfl⟩
      · refine ⟨1, ?_⟩
        unfold diffElem
        rw [if_neg (not_not.mpr hKinds)]
        split
        next i j _ => exact absurd ⟨i, j, rfl, rfl⟩ hMap
        next => split <;> exact ⟨_, rfl⟩
        next => exact ⟨_, rfl⟩
        next => exact ⟨_, rfl⟩
        next i j _ => exact absurd ⟨i, j, rfl, rfl⟩ hXml
        next => exact ⟨_, rfl⟩
        next =>
          split
          · split <;> exact ⟨_, rfl⟩
          · exact ⟨_, rfl⟩
    · refine ⟨1, replaced a b path, ?_⟩
      unfold diffElem
      rw [if_pos hKinds]

end Ends

theorem diffTree_eq (old new : Content) (fuel : Nat) : diffTree old new fuel =
    diffElem old new (fuel + 1) (.handle .map ROOT_ID) (.handle .map ROOT_ID) [] := rfl

section Exact

variable [IdBytes]

theorem markView_key {entry : ElementId × RangedEntry} {view : Bytes × ElementId × MarkView}
    (h : markView entry = some view) : view.1 = IdBytes.asBytes entry.1 := by
  unfold markView at h
  split at h
  · cases h
    rfl
  · cases h

theorem markViews_sorted (c : Content) : ((markViews c).map Prod.fst).Pairwise (· < ·) := by
  unfold markViews Validate.rangedElements
  have hSorted := List.pairwise_insertionSort
    (fun a b : ElementId × RangedEntry => IdBytes.asBytes a.1 ≤ IdBytes.asBytes b.1)
    (c.ranged.toList.filter fun entry => !entry.2.tombstone)
  have hIds : ((c.ranged.toList.filter fun entry => !entry.2.tombstone).insertionSort
      fun a b => IdBytes.asBytes a.1 ≤ IdBytes.asBytes b.1).Pairwise fun a b => a.1 ≠ b.1 :=
    ((pairwise_ne_entries c.ranged).filter _).perm (List.perm_insertionSort ..).symm fun h => h.symm
  rw [List.pairwise_map]
  refine List.Pairwise.filterMap _ ?_ (hSorted.and hIds)
  rintro a a' ⟨hLe, hNe⟩ b hb b' hb'
  rw [markView_key hb, markView_key hb']
  exact lt_of_le_of_ne hLe fun hEq => hNe (IdBytes.injective hEq)

/-- The annotations, in the order of their ids. -/
theorem lists_diffMarks (old new : Content) :
    Lists (· < ·) (Joins markRemoved markAdded markChanged (markViews old) (markViews new))
      (diffMarks old new) :=
  lists_mergeJoin (markViews_sorted old) (markViews_sorted new)

/-- Nothing tells the annotations of a snapshot from its own. -/
theorem not_joins_self (c : Content) (k : Bytes) (change : Change) :
    ¬Joins markRemoved markAdded markChanged (markViews c) (markViews c) k change := by
  intro h
  cases h with
  | removed hIn hOut => exact hOut (List.mem_map_of_mem hIn)
  | added hIn hOut => exact hOut (List.mem_map_of_mem hIn)
  | changed hx hy hKeys hChanged =>
    have hSame := List.inj_on_of_nodup_map ((markViews_sorted c).imp fun h => h.ne) hx hy hKeys
    unfold markChanged at hChanged
    rw [hSame, if_neg (not_not.mpr rfl)] at hChanged
    cases hChanged

end Exact

section Example

local instance diffIdBytes : IdBytes := IdBytes.spelled

end Example

end Diff

end CrdtSync
