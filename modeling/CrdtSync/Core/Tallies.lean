import Mathlib.Algebra.BigOperators.Group.Finset.Piecewise
import Mathlib.Algebra.BigOperators.Ring.Finset
import CrdtSync.Core.ParentGrowth

/-!
# Counter totals

A counter keeps one tally an author and direction, clamped at the top of a `u32`. What it
reads is the sum of the clamped tallies: it depends neither on the order of the ops nor on how
an author's counts are split, and is the exact sum of the deltas where what the clamps cut
off balances.
-/

namespace CrdtSync

open Lib
open Std (ExtTreeMap)

inductive CounterDelta
  | inc (amount : Fin (2 ^ 32))
  | dec (amount : Fin (2 ^ 32))

namespace CounterDelta

def added : CounterDelta → Nat
  | inc amount => amount
  | dec _ => 0

/-- What the delta takes away. -/
def taken : CounterDelta → Nat
  | inc _ => 0
  | dec amount => amount

def value (delta : CounterDelta) : Int := (delta.added : Int) - delta.taken

end CounterDelta

structure CounterOp where
  author : ClientId
  delta : CounterDelta

def Tally.value (t : Tally) : Int := (t.inc : Int) - t.dec

namespace Counter

def applyDelta (n : Counter) (op : CounterOp) : Counter :=
  match op.delta with
  | .inc amount => n.inc op.author amount
  | .dec amount => n.dec op.author amount

theorem entries_applyDelta_congr {n n' : Counter} (h : n.entries = n'.entries) (op : CounterOp) :
    (n.applyDelta op).entries = (n'.applyDelta op).entries := by
  unfold applyDelta
  cases op.delta with
  | inc amount => exact congrArg (fun entries => (Counter.mk entries false |>.inc op.author amount).entries) h
  | dec amount => exact congrArg (fun entries => (Counter.mk entries false |>.dec op.author amount).entries) h

def folded (ops : List CounterOp) : Counter := ops.foldl applyDelta new

def addedBy (ops : List CounterOp) (client : ClientId) : Nat :=
  ((ops.filter fun op => op.author = client).map fun op => op.delta.added).sum

def takenBy (ops : List CounterOp) (client : ClientId) : Nat :=
  ((ops.filter fun op => op.author = client).map fun op => op.delta.taken).sum

theorem addedBy_append (ops : List CounterOp) (op : CounterOp) (client : ClientId) :
    addedBy (ops ++ [op]) client =
      addedBy ops client + if op.author = client then op.delta.added else 0 := by
  rw [addedBy, List.filter_append, List.map_append, List.sum_append]
  by_cases h : op.author = client <;> simp [addedBy, h]

theorem takenBy_append (ops : List CounterOp) (op : CounterOp) (client : ClientId) :
    takenBy (ops ++ [op]) client =
      takenBy ops client + if op.author = client then op.delta.taken else 0 := by
  rw [takenBy, List.filter_append, List.map_append, List.sum_append]
  by_cases h : op.author = client <;> simp [takenBy, h]

theorem addedBy_eq_zero {ops : List CounterOp} {client : ClientId}
    (h : ∀ op ∈ ops, op.author ≠ client) : addedBy ops client = 0 ∧ takenBy ops client = 0 := by
  have hNone : (ops.filter fun op => op.author = client) = [] :=
    List.filter_eq_nil_iff.mpr fun op hOp => by simp [h op hOp]
  rw [addedBy, takenBy, hNone]
  exact ⟨rfl, rfl⟩

/-- What an author's ops come to. -/
def tallyOf (ops : List CounterOp) (client : ClientId) : Tally :=
  ⟨min (addedBy ops client) u32Max, min (takenBy ops client) u32Max⟩

/-- A delta of an author whose tally stands at what the ops before it come to. -/
theorem entries_applyDelta {n : Counter} {ops : List CounterOp} {op : CounterOp}
    (hTally : n.entries[op.author]? = some (tallyOf ops op.author) ∨
      n.entries[op.author]? = none ∧ ∀ before ∈ ops, before.author ≠ op.author)
    (client : ClientId) :
    (n.applyDelta op).entries[client]? =
      if client = op.author then some (tallyOf (ops ++ [op]) client) else n.entries[client]? := by
  obtain ⟨author, delta⟩ := op
  have hSmall (amount : Fin (2 ^ 32)) : (amount : Nat) ≤ u32Max := by
    have := amount.isLt
    unfold u32Max
    omega
  cases delta with
  | inc amount =>
    refine (getElem?_alter_ite ..).trans ?_
    split
    next hClient =>
      subst hClient
      rw [tallyOf, addedBy_append, takenBy_append, if_pos rfl, if_pos rfl]
      rcases hTally with hHeld | ⟨hNone, hFirst⟩
      · rw [hHeld]
        simp only [tallyOf, CounterDelta.added, CounterDelta.taken, Option.some_inj, Tally.mk.injEq]
        omega
      · obtain ⟨hAdded, hTaken⟩ := addedBy_eq_zero hFirst
        have hFits := hSmall amount
        rw [hNone, hAdded, hTaken]
        simp only [CounterDelta.added, CounterDelta.taken, Option.some_inj, Tally.mk.injEq]
        omega
    next => rfl
  | dec amount =>
    refine (getElem?_alter_ite ..).trans ?_
    split
    next hClient =>
      subst hClient
      rw [tallyOf, addedBy_append, takenBy_append, if_pos rfl, if_pos rfl]
      rcases hTally with hHeld | ⟨hNone, hFirst⟩
      · rw [hHeld]
        simp only [tallyOf, CounterDelta.added, CounterDelta.taken, Option.some_inj, Tally.mk.injEq]
        omega
      · obtain ⟨hAdded, hTaken⟩ := addedBy_eq_zero hFirst
        have hFits := hSmall amount
        rw [hNone, hAdded, hTaken]
        simp only [CounterDelta.added, CounterDelta.taken, Option.some_inj, Tally.mk.injEq]
        omega
    next => rfl

theorem entries_folded (ops : List CounterOp) (client : ClientId) :
    (folded ops).entries[client]? =
      if ∃ op ∈ ops, op.author = client then some (tallyOf ops client) else none := by
  induction ops using List.reverseRecOn generalizing client with
  | nil => simp [folded, new]
  | append_singleton ops op ih =>
    have hTally : (folded ops).entries[op.author]? = some (tallyOf ops op.author) ∨
        (folded ops).entries[op.author]? = none ∧ ∀ before ∈ ops, before.author ≠ op.author := by
      rw [ih]
      split
      next => exact .inl rfl
      next hFirst => exact .inr ⟨rfl, fun before hIn hEq => hFirst ⟨before, hIn, hEq⟩⟩
    have hStep : folded (ops ++ [op]) = (folded ops).applyDelta op := by
      rw [folded, List.foldl_append]
      rfl
    rw [hStep, entries_applyDelta hTally client]
    split
    next hClient => exact (if_pos ⟨op, List.mem_append_right _ List.mem_cons_self, hClient.symm⟩).symm
    next hClient =>
      have hTotals : tallyOf (ops ++ [op]) client = tallyOf ops client := by
        rw [tallyOf, addedBy_append, takenBy_append, if_neg (Ne.symm hClient),
          if_neg (Ne.symm hClient)]
        rfl
      rw [ih client, hTotals]
      refine if_congr ⟨?_, ?_⟩ rfl rfl
      · rintro ⟨before, hIn, hAuthor⟩
        exact ⟨before, List.mem_append_left _ hIn, hAuthor⟩
      · rintro ⟨before, hIn, hAuthor⟩
        rcases List.mem_append.mp hIn with hIn | hIn
        · exact ⟨before, hIn, hAuthor⟩
        · exact absurd ((List.mem_singleton.mp hIn ▸ hAuthor).symm) hClient

theorem read_eq_sum {n : Counter} {clients : Finset ClientId}
    (h : ∀ client tally, n.entries[client]? = some tally → client ∈ clients) :
    n.read = ∑ client ∈ clients, (n.entries[client]?.map Tally.value).getD 0 := by
  have hKeys : n.entries.keys.toFinset ⊆ clients := by
    intro client hClient
    have hIn : client ∈ n.entries := ExtTreeMap.mem_keys.mp (List.mem_toFinset.mp hClient)
    exact h client _ (ExtTreeMap.getElem?_eq_some_getElem hIn)
  have hEntry (e : ClientId × Tally) (hIn : e ∈ n.entries.toList) :
      ((e.2.inc : Int) - e.2.dec) = (n.entries[e.1]?.map Tally.value).getD 0 := by
    rw [mem_toList_iff.mp hIn]
    rfl
  rw [read, List.map_congr_left hEntry, ← Finset.sum_subset hKeys]
  · have hMap : (n.entries.toList.map fun e => (n.entries[e.1]?.map Tally.value).getD 0) =
        n.entries.keys.map fun client => (n.entries[client]?.map Tally.value).getD 0 := by
      rw [← ExtTreeMap.map_fst_toList_eq_keys, List.map_map]
      rfl
    rw [hMap, List.sum_toFinset _ ExtTreeMap.nodup_keys]
  · intro client _ hOut
    have hNone : n.entries[client]? = none := ExtTreeMap.getElem?_eq_none fun hIn =>
      hOut (List.mem_toFinset.mpr (ExtTreeMap.mem_keys.mpr hIn))
    rw [hNone]
    rfl

def authors (ops : List CounterOp) : Finset ClientId := (ops.map CounterOp.author).toFinset

theorem mem_authors {ops : List CounterOp} {client : ClientId} :
    client ∈ authors ops ↔ ∃ op ∈ ops, op.author = client := by
  rw [authors, List.mem_toFinset, List.mem_map]

theorem read_folded_over {ops : List CounterOp} {clients : Finset ClientId}
    (h : authors ops ⊆ clients) :
    (folded ops).read = ∑ client ∈ clients, (tallyOf ops client).value := by
  rw [read_eq_sum]
  · refine Finset.sum_congr rfl fun client _ => ?_
    rw [entries_folded]
    split
    next => rfl
    next hNone =>
      obtain ⟨hAdded, hTaken⟩ := addedBy_eq_zero fun op hOp hEq => hNone ⟨op, hOp, hEq⟩
      rw [tallyOf, hAdded, hTaken]
      rfl
  · intro client tally hTally
    rw [entries_folded] at hTally
    split at hTally
    next hOp => exact h (mem_authors.mpr hOp)
    next => cases hTally

theorem sum_deltas {ops : List CounterOp} {clients : Finset ClientId} (h : authors ops ⊆ clients) :
    (ops.map fun op => op.delta.value).sum =
      ∑ client ∈ clients, ((addedBy ops client : Int) - takenBy ops client) := by
  induction ops using List.reverseRecOn with
  | nil => simp [addedBy, takenBy]
  | append_singleton ops op ih =>
    have hBefore : authors ops ⊆ clients := fun client hClient => by
      obtain ⟨before, hIn, hAuthor⟩ := mem_authors.mp hClient
      exact h (mem_authors.mpr ⟨before, List.mem_append_left _ hIn, hAuthor⟩)
    have hAuthor : op.author ∈ clients :=
      h (mem_authors.mpr ⟨op, List.mem_append_right _ List.mem_cons_self, rfl⟩)
    have hClient (client : ClientId) :
        ((addedBy (ops ++ [op]) client : Int) - takenBy (ops ++ [op]) client) =
          ((addedBy ops client : Int) - takenBy ops client) +
            if op.author = client then op.delta.value else 0 := by
      rw [addedBy_append, takenBy_append]
      split
      · rw [CounterDelta.value]
        push_cast
        omega
      · omega
    rw [Finset.sum_congr rfl fun client _ => hClient client, Finset.sum_add_distrib, ← ih hBefore,
      Finset.sum_ite_eq, if_pos hAuthor]
    simp only [List.map_append, List.map_cons, List.map_nil, List.sum_append, List.sum_cons,
      List.sum_nil, add_zero]

/-- What the clamps cut off an author's increments. -/
def addedOver (ops : List CounterOp) (client : ClientId) : Nat := addedBy ops client - u32Max

def takenOver (ops : List CounterOp) (client : ClientId) : Nat := takenBy ops client - u32Max

/-- A counter reads the exact sum of its deltas where what the clamps cut off the increments is
what they cut off the decrements. -/
theorem read_folded_exact_iff (ops : List CounterOp) :
    (folded ops).read = (ops.map fun op => op.delta.value).sum ↔
      ∑ client ∈ authors ops, addedOver ops client =
        ∑ client ∈ authors ops, takenOver ops client := by
  have hCut (client : ClientId) : (tallyOf ops client).value =
      ((addedBy ops client : Int) - takenBy ops client) -
        ((addedOver ops client : Int) - takenOver ops client) := by
    simp only [Tally.value, tallyOf, addedOver, takenOver]
    omega
  rw [read_folded_over (subset_refl _), sum_deltas (subset_refl _),
    Finset.sum_congr rfl fun client _ => hCut client,
    Finset.sum_sub_distrib, sub_eq_self, Finset.sum_sub_distrib, sub_eq_zero]
  rw [← Nat.cast_sum, ← Nat.cast_sum, Nat.cast_inj]

/-- Two folds whose authors come to the same totals read the same. -/
theorem read_folded_congr {ops ops' : List CounterOp}
    (h : ∀ client, addedBy ops client = addedBy ops' client ∧ takenBy ops client = takenBy ops' client) :
    (folded ops).read = (folded ops').read := by
  rw [read_folded_over (Finset.subset_union_left),
    read_folded_over (Finset.subset_union_right)]
  refine Finset.sum_congr rfl fun client _ => ?_
  rw [tallyOf, tallyOf, (h client).1, (h client).2]

/-- The order of the ops leaves no trace. -/
theorem folded_perm {ops ops' : List CounterOp} (h : ops.Perm ops') :
    (folded ops).entries = (folded ops').entries := by
  refine ExtTreeMap.ext_getElem? fun client => ?_
  have hAdded : addedBy ops client = addedBy ops' client := ((h.filter _).map _).sum_eq
  have hTaken : takenBy ops client = takenBy ops' client := ((h.filter _).map _).sum_eq
  rw [entries_folded, entries_folded, tallyOf, tallyOf, hAdded, hTaken]
  refine if_congr ⟨?_, ?_⟩ rfl rfl
  · rintro ⟨op, hOp, hAuthor⟩
    exact ⟨op, h.mem_iff.mp hOp, hAuthor⟩
  · rintro ⟨op, hOp, hAuthor⟩
    exact ⟨op, h.mem_iff.mpr hOp, hAuthor⟩

end Counter

/-! ### Driving a counter to a total -/

def CounterDelta.kind (key : Bytes) : CounterDelta → OpKind
  | inc amount => .counterInc key amount
  | dec amount => .counterDec key amount

/-- The loop of `fill_counter`: as much as an op carries, until nothing is left. A zero total still
takes one op. -/
def fillFrom (key : Bytes) (negative : Bool) (left : Nat) : List OpKind :=
  let amount := min left u32Max
  let kind : OpKind := if negative then .counterDec key amount else .counterInc key amount
  if left - amount = 0 then [kind] else kind :: fillFrom key negative (left - amount)
termination_by left
decreasing_by
  unfold u32Max at *
  omega

def fillCounter (key : Bytes) (total : Int) : List OpKind :=
  fillFrom key (decide (total < 0)) total.natAbs

/-- The ops carry the total between them, all in its direction. -/
theorem fillFrom_deltas (key : Bytes) (negative : Bool) (left : Nat) :
    ∃ deltas : List CounterDelta, fillFrom key negative left = deltas.map (CounterDelta.kind key) ∧
      (deltas.map CounterDelta.added).sum = (if negative then 0 else left) ∧
      (deltas.map CounterDelta.taken).sum = if negative then left else 0 := by
  induction left using Nat.strong_induction_on with
  | _ left ih =>
    have hSmall : min left u32Max < 2 ^ 32 := by
      unfold u32Max
      omega
    rw [fillFrom]
    cases negative with
    | false =>
      split
      next hLast =>
        refine ⟨[.inc ⟨min left u32Max, hSmall⟩], rfl, ?_, rfl⟩
        simp only [List.map_cons, List.map_nil, List.sum_cons, List.sum_nil, CounterDelta.added,
          Bool.false_eq_true, if_false]
        omega
      next hMore =>
        obtain ⟨deltas, hRest, hAdded, hTaken⟩ := ih (left - min left u32Max) (by
          unfold u32Max at *
          omega)
        refine ⟨.inc ⟨min left u32Max, hSmall⟩ :: deltas, congrArg _ hRest, ?_, ?_⟩
        · rw [List.map_cons, List.sum_cons, hAdded]
          simp only [CounterDelta.added, Bool.false_eq_true, if_false]
          omega
        · rw [List.map_cons, List.sum_cons, hTaken]
          rfl
    | true =>
      split
      next hLast =>
        refine ⟨[.dec ⟨min left u32Max, hSmall⟩], rfl, rfl, ?_⟩
        simp only [List.map_cons, List.map_nil, List.sum_cons, List.sum_nil, CounterDelta.taken,
          if_true]
        omega
      next hMore =>
        obtain ⟨deltas, hRest, hAdded, hTaken⟩ := ih (left - min left u32Max) (by
          unfold u32Max at *
          omega)
        refine ⟨.dec ⟨min left u32Max, hSmall⟩ :: deltas, congrArg _ hRest, ?_, ?_⟩
        · rw [List.map_cons, List.sum_cons, hAdded]
          rfl
        · rw [List.map_cons, List.sum_cons, hTaken]
          simp only [CounterDelta.taken, if_true]
          omega

namespace Content

theorem entries_setDisplaced (c : Content) (away : Bool) (e : Element) (id : ElementId) :
    (c.setDisplaced away e).counters[id]?.map Counter.entries =
      c.counters[id]?.map Counter.entries := by
  unfold setDisplaced
  split
  · rfl
  · rfl
  · rfl
  · rw [ExtTreeMap.getElem?_modify]
    split
    next h =>
      obtain rfl := Std.compare_eq_iff_eq.mp h
      rw [Option.map_map]
      rfl
    next => rfl
  · split
    · rfl
    · dsimp only
      split <;> split <;> rfl
  · split
    · rfl
    · dsimp only
      split <;> rfl
  · rfl

theorem entries_putMap (c : Content) (map : ElementId) (written : LwwMap × Option Element)
    (id : ElementId) :
    (c.putMap map written).counters[id]?.map Counter.entries =
      c.counters[id]?.map Counter.entries := by
  unfold putMap
  split
  · exact entries_setDisplaced ..
  · rfl

theorem entries_installAt (c : Content) (map : ElementId) (m : LwwMap) (key : Bytes) (e : Element)
    (stamp : Stamp) (id : ElementId) :
    (c.installAt map m key e stamp).counters[id]?.map Counter.entries =
      c.counters[id]?.map Counter.entries := by
  unfold installAt
  dsimp only
  split
  · exact (entries_setDisplaced ..).trans (entries_putMap ..)
  · exact (entries_setDisplaced ..).trans (entries_putMap ..)

/-- The tallies registered under an id. -/
def tallies (c : Content) (id : ElementId) : ExtTreeMap ClientId Tally compare :=
  (c.counters[id]?.map Counter.entries).getD ∅

variable [IdBytes]

theorem applyKind_delta (c : Content) (map : ElementId) (key : Bytes) (delta : CounterDelta)
    (stamp : Stamp) (author : ClientId) :
    c.applyKind map (delta.kind key) stamp author =
      c.applyCounter map key stamp fun n => n.applyDelta ⟨author, delta⟩ := by
  cases delta <;> rfl

/-- A counter op folds its delta into the registered counter, whatever holds the slot. -/
theorem tallies_applyKind {c : Content} {map : ElementId} (hMap : map ∈ c.maps) (key : Bytes)
    (delta : CounterDelta) (stamp : Stamp) (author : ClientId) {n : Counter}
    (hHeld : c.tallies (.derive map key .counter) = n.entries) :
    map ∈ (c.applyKind map (delta.kind key) stamp author).maps ∧
      (c.applyKind map (delta.kind key) stamp author).tallies (.derive map key .counter) =
        (n.applyDelta ⟨author, delta⟩).entries := by
  obtain ⟨m, hm⟩ : ∃ m, c.maps[map]? = some m := ⟨_, ExtTreeMap.getElem?_eq_some_getElem hMap⟩
  rw [applyKind_delta]
  refine ⟨((SameTree.applyCounter c map key stamp _).maps map).mpr hMap, ?_⟩
  rw [tallies, applyCounter, hm]
  dsimp only
  rw [entries_installAt, ExtTreeMap.getElem?_insert_self]
  refine Counter.entries_applyDelta_congr (Eq.trans ?_ hHeld) _
  rw [tallies]
  cases c.counters[ElementId.derive map key .counter]? <;> rfl

/-- Ops of one author folded in one after another, each at its stamp. -/
def applyAll (c : Content) (target : ElementId) (author : ClientId)
    (emitted : List (Stamp × OpKind)) : Content :=
  emitted.foldl (fun c e => c.applyKind target e.2 e.1 author) c

theorem tallies_applyAll {c : Content} {map : ElementId} (hMap : map ∈ c.maps) {key : Bytes}
    {author : ClientId} {n : Counter} (hHeld : c.tallies (.derive map key .counter) = n.entries)
    {emitted : List (Stamp × OpKind)} {deltas : List CounterDelta}
    (hKinds : emitted.map Prod.snd = deltas.map (CounterDelta.kind key)) :
    (c.applyAll map author emitted).tallies (.derive map key .counter) =
      ((deltas.map fun delta => ⟨author, delta⟩).foldl Counter.applyDelta n).entries := by
  induction deltas generalizing c n emitted with
  | nil =>
    obtain rfl := List.map_eq_nil_iff.mp hKinds
    exact hHeld
  | cons delta deltas ih =>
    obtain ⟨⟨stamp, kind⟩, rest, rfl, hKind, hRest⟩ := List.map_eq_cons_iff.mp hKinds
    obtain rfl : kind = delta.kind key := hKind
    obtain ⟨hStill, hStep⟩ := tallies_applyKind hMap key delta stamp author hHeld
    exact ih hStill hStep hRest

end Content

namespace Counter

theorem read_congr {n n' : Counter} (h : n.entries = n'.entries) : n.read = n'.read := by
  rw [read, read, h]

theorem read_folded_author (author : ClientId) (deltas : List CounterDelta) :
    (folded (deltas.map fun delta => ⟨author, delta⟩)).read =
      (min (deltas.map CounterDelta.added).sum u32Max : Nat) -
        (min (deltas.map CounterDelta.taken).sum u32Max : Nat) := by
  have hAuthors : authors (deltas.map fun delta => ⟨author, delta⟩) ⊆ {author} := by
    intro client hClient
    obtain ⟨op, hOp, rfl⟩ := mem_authors.mp hClient
    obtain ⟨delta, -, rfl⟩ := List.mem_map.mp hOp
    exact Finset.mem_singleton_self _
  have hAll : ((deltas.map fun delta => (⟨author, delta⟩ : CounterOp)).filter
      fun op => op.author = author) = deltas.map fun delta => ⟨author, delta⟩ := by
    refine List.filter_eq_self.mpr fun op hOp => ?_
    obtain ⟨delta, -, rfl⟩ := List.mem_map.mp hOp
    exact decide_eq_true rfl
  rw [read_folded_over hAuthors, Finset.sum_singleton, Tally.value, tallyOf, addedBy, takenBy, hAll,
    List.map_map, List.map_map]
  rfl

end Counter

namespace Content

theorem counterValue_of_tallies {c : Content} {id : ElementId} {n : Counter}
    (h : c.tallies id = n.entries) : c.counterValue id = n.read := by
  have hRead : c.counterValue id = (Counter.mk (c.tallies id) false).read := by
    unfold counterValue tallies
    cases c.counters[id]? <;> rfl
  exact hRead.trans (Counter.read_congr h)

theorem counterValue_fillCounter [IdBytes] {c : Content} {map : ElementId} (hMap : map ∈ c.maps) {key : Bytes}
    {total : Int} (hFresh : c.tallies (.derive map key .counter) = ∅) (author : ClientId)
    {emitted : List (Stamp × OpKind)} (hEmitted : emitted.map Prod.snd = fillCounter key total)
    (hFits : total.natAbs ≤ u32Max) :
    (c.applyAll map author emitted).counterValue (.derive map key .counter) = total := by
  obtain ⟨deltas, hDeltas, hAdded, hTaken⟩ :=
    fillFrom_deltas key (decide (total < 0)) total.natAbs
  have hFold : (c.applyAll map author emitted).tallies _ = _ :=
    tallies_applyAll hMap (n := Counter.new) hFresh (hEmitted.trans hDeltas)
  rw [counterValue_of_tallies hFold]
  refine (Counter.read_folded_author author deltas).trans ?_
  rw [hAdded, hTaken]
  simp only [decide_eq_true_eq]
  split <;> omega

end Content

/-- What a counter totals, and what filling one brings it to. -/
theorem counter_totals [IdBytes] :
    (∀ (c : Content) (map : ElementId) (key : Bytes) (total : Int) (author : ClientId)
      (emitted : List (Stamp × OpKind)), map ∈ c.maps →
      c.tallies (.derive map key .counter) = ∅ → emitted.map Prod.snd = fillCounter key total →
      total.natAbs ≤ u32Max →
      (c.applyAll map author emitted).counterValue (.derive map key .counter) = total) ∧
    (∀ ops : List CounterOp, (Counter.folded ops).read = ∑ client ∈ Counter.authors ops,
      ((min (Counter.addedBy ops client) u32Max : Nat) -
        (min (Counter.takenBy ops client) u32Max : Nat) : Int)) ∧
    (∀ ops : List CounterOp,
      (Counter.folded ops).read = (ops.map fun op => op.delta.value).sum ↔
        ∑ client ∈ Counter.authors ops, Counter.addedOver ops client =
          ∑ client ∈ Counter.authors ops, Counter.takenOver ops client) ∧
    (∀ ops ops' : List CounterOp, ops.Perm ops' →
      (Counter.folded ops).entries = (Counter.folded ops').entries) ∧
    ∀ ops ops' : List CounterOp, (∀ client, Counter.addedBy ops client = Counter.addedBy ops' client ∧
        Counter.takenBy ops client = Counter.takenBy ops' client) →
      (Counter.folded ops).read = (Counter.folded ops').read :=
  ⟨fun _ _ _ _ author _ hMap hFresh hEmitted hFits =>
      Content.counterValue_fillCounter hMap hFresh author hEmitted hFits,
    fun _ => Counter.read_folded_over (subset_refl _), Counter.read_folded_exact_iff,
    fun _ _ h => Counter.folded_perm h, fun _ _ h => Counter.read_folded_congr h⟩

section Examples

local instance talliesIdBytes : IdBytes := IdBytes.spelled

theorem counter_totals_filled :
    (Content.new.applyAll ROOT_ID ⟨1⟩ [(⟨1, ⟨1⟩, 0⟩, .counterDec [99] 7)]).counterValue
      (.derive ROOT_ID [99] .counter) = -7 := by
  refine counter_totals.1 Content.new ROOT_ID [99] (-7) ⟨1⟩ _ ?_ ?_ ?_ (by decide)
  · exact ExtTreeMap.mem_insert_self
  · rfl
  · rw [fillCounter, fillFrom]
    rfl

/-- Two increments of one author past the end of its tally. -/
def countedOver : List CounterOp :=
  [⟨⟨1⟩, .inc ⟨2 ^ 32 - 1, by decide⟩⟩, ⟨⟨1⟩, .inc ⟨1, by decide⟩⟩]

theorem read_countedOver :
    (Counter.folded countedOver).read ≠ (countedOver.map fun op => op.delta.value).sum := by
  decide +kernel

end Examples

end CrdtSync
