import Mathlib.Data.List.Nodup
import Mathlib.Order.Lattice

/-!
# Differences of sequences and of sorted entries

A sequence is turned into another by taking the runs of items out that the other does not have and
putting in the runs it does not have itself, where the items in both are in the same order. Two
lists of entries sorted by key are compared in one pass over both.
-/

namespace CrdtSync

namespace Lib

section Runs

variable {α β : Type}

/-- The runs of items that are not kept, each with the index its first item stands at. `run` is the
one being gathered. -/
def runs (kept : α → Bool) (item : α → β) : List α → Nat → Option (Nat × List β) → List (Nat × List β)
  | [], _, run => run.toList
  | x :: xs, index, run =>
    if kept x then run.toList ++ runs kept item xs (index + 1) none
    else
      let gathered := run.getD (index, [])
      runs kept item xs (index + 1) (some (gathered.1, gathered.2 ++ [item x]))

def removeRun (run : Nat × List β) (xs : List β) : List β :=
  xs.take run.1 ++ xs.drop (run.1 + run.2.length)

def insertRun (xs : List β) (run : Nat × List β) : List β :=
  xs.take run.1 ++ run.2 ++ xs.drop run.1

/-- Runs that stand at indices of the list they are taken out of: the last one first. -/
def removeRuns (runs : List (Nat × List β)) (xs : List β) : List β := runs.foldr removeRun xs

/-- Runs that stand at indices of the list they make: the first one first. -/
def insertRuns (runs : List (Nat × List β)) (xs : List β) : List β := runs.foldl insertRun xs

theorem removeRun_append (before items after : List β) :
    removeRun (before.length, items) (before ++ items ++ after) = before ++ after := by
  unfold removeRun
  rw [List.append_assoc, List.take_left, ← List.append_assoc, ← List.length_append, List.drop_left]

theorem insertRun_append (before items after : List β) :
    insertRun (before ++ after) (before.length, items) = before ++ items ++ after := by
  unfold insertRun
  rw [List.take_left, List.drop_left]

variable {kept : α → Bool} {item : α → β}

theorem removeRuns_gathered (xs : List α) (before items : List β) :
    removeRuns (runs kept item xs (before.length + items.length) (some (before.length, items)))
        (before ++ items ++ xs.map item) = before ++ (xs.filter kept).map item ∧
      removeRuns (runs kept item xs before.length none) (before ++ xs.map item) =
        before ++ (xs.filter kept).map item := by
  induction xs generalizing before items with
  | nil =>
    refine ⟨?_, rfl⟩
    rw [List.map_nil, List.filter_nil, List.map_nil, List.append_nil, List.append_nil]
    have hRemove := removeRun_append before items []
    rwa [List.append_nil, List.append_nil] at hRemove
  | cons x xs ih =>
    rw [runs, runs]
    split
    next hKept =>
      have hNext (passed : List β) : removeRuns (runs kept item xs (passed.length + 1) none)
          (passed ++ (x :: xs).map item) = passed ++ item x :: (xs.filter kept).map item := by
        have hLater := (ih (passed ++ [item x]) []).2
        rw [List.length_append, List.length_singleton, List.append_assoc, List.append_assoc] at hLater
        exact hLater
      rw [List.filter_cons_of_pos hKept, List.map_cons (f := item) (a := x) (l := xs.filter kept)]
      refine ⟨?_, hNext before⟩
      have hInner := hNext (before ++ items)
      rw [List.length_append] at hInner
      unfold removeRuns at hInner ⊢
      rw [Option.toList_some, List.foldr_append, hInner]
      exact removeRun_append before items _
    next hDropped =>
      rw [List.filter_cons_of_neg hDropped]
      dsimp only [Option.getD_some, Option.getD_none]
      constructor
      · have hLater := (ih before (items ++ [item x])).1
        rw [List.length_append, List.length_singleton] at hLater
        simpa [Nat.add_assoc] using hLater
      · have hLater := (ih before [item x]).1
        simpa using hLater

/-- What is left once the runs are taken out. -/
theorem removeRuns_runs (xs : List α) :
    removeRuns (runs kept item xs 0 none) (xs.map item) = (xs.filter kept).map item :=
  (removeRuns_gathered xs [] []).2

theorem insertRuns_gathered (xs : List α) (before items : List β) :
    insertRuns (runs kept item xs (before.length + items.length) (some (before.length, items)))
        (before ++ (xs.filter kept).map item) = before ++ items ++ xs.map item ∧
      insertRuns (runs kept item xs before.length none) (before ++ (xs.filter kept).map item) =
        before ++ xs.map item := by
  induction xs generalizing before items with
  | nil =>
    refine ⟨?_, rfl⟩
    have hInsert := insertRun_append before items []
    simpa [runs, insertRuns] using hInsert
  | cons x xs ih =>
    rw [runs, runs]
    split
    next hKept =>
      have hNext (passed : List β) : insertRuns (runs kept item xs (passed.length + 1) none)
          (passed ++ item x :: (xs.filter kept).map item) = passed ++ (x :: xs).map item := by
        have hLater := (ih (passed ++ [item x]) []).2
        rw [List.length_append, List.length_singleton, List.append_assoc, List.append_assoc] at hLater
        exact hLater
      rw [List.filter_cons_of_pos hKept, List.map_cons (f := item) (a := x) (l := xs.filter kept)]
      refine ⟨?_, hNext before⟩
      have hInner := hNext (before ++ items)
      rw [List.length_append] at hInner
      unfold insertRuns at hInner ⊢
      rw [Option.toList_some, List.foldl_append]
      change List.foldl insertRun (insertRun _ (before.length, items)) _ = _
      rw [insertRun_append]
      exact hInner
    next hDropped =>
      rw [List.filter_cons_of_neg hDropped]
      dsimp only [Option.getD_some, Option.getD_none]
      constructor
      · have hLater := (ih before (items ++ [item x])).1
        rw [List.length_append, List.length_singleton] at hLater
        simpa [Nat.add_assoc] using hLater
      · have hLater := (ih before [item x]).1
        simpa using hLater

theorem insertRuns_runs (xs : List α) :
    insertRuns (runs kept item xs 0 none) ((xs.filter kept).map item) = xs.map item :=
  (insertRuns_gathered xs [] []).2

theorem runs_eq_nil_iff {xs : List α} {index : Nat} {run : Option (Nat × List β)} :
    runs kept item xs index run = [] ↔ run = none ∧ ∀ x ∈ xs, kept x = true := by
  induction xs generalizing index run with
  | nil => cases run <;> simp [runs]
  | cons x xs ih =>
    rw [runs]
    split
    next hKept =>
      rw [List.append_eq_nil_iff, ih, List.forall_mem_cons]
      cases run <;> simp [hKept]
    next hDropped =>
      rw [ih]
      simp [hDropped]

variable {index : Nat} {run : Nat × List β}

/-- A longest run of items that are not kept, in a list whose first item stands at an index. -/
structure LongestRun (kept : α → Bool) (item : α → β) (before gathered after : List α) (index : Nat)
    (run : Nat × List β) : Prop where
  starts : run.1 = index + before.length
  items : run.2 = gathered.map item
  nonempty : gathered ≠ []
  dropped : ∀ x ∈ gathered, kept x = false
  previous : ∀ x ∈ before.getLast?, kept x = true
  next : ∀ x ∈ after.head?, kept x = true

theorem longestRun_cons {x : α} {before gathered after : List α} :
    LongestRun kept item (x :: before) gathered after index run ↔
      LongestRun kept item before gathered after (index + 1) run ∧ (before = [] → kept x = true) := by
  constructor
  · intro h
    refine ⟨⟨?_, h.items, h.nonempty, h.dropped, ?_, h.next⟩, ?_⟩
    · rw [h.starts, List.length_cons]
      omega
    · cases before with
      | nil => simp
      | cons y before => exact h.previous
    · rintro rfl
      exact h.previous x rfl
  · rintro ⟨h, hFirst⟩
    refine ⟨?_, h.items, h.nonempty, h.dropped, ?_, h.next⟩
    · rw [h.starts, List.length_cons]
      omega
    · cases before with
      | nil => simpa using hFirst rfl
      | cons y before => exact h.previous

/-- A list with a longest run, behind at least one item where it has to be. -/
def HasRun (kept : α → Bool) (item : α → β) (behind : Prop) (xs : List α) (index : Nat)
    (run : Nat × List β) : Prop :=
  ∃ before gathered after, xs = before ++ gathered ++ after ∧ (behind → before ≠ []) ∧
    LongestRun kept item before gathered after index run

theorem hasRun_cons_kept {behind : Prop} {x : α} {xs : List α} (hKept : kept x = true) :
    HasRun kept item behind (x :: xs) index run ↔ HasRun kept item False xs (index + 1) run := by
  constructor
  · rintro ⟨before, gathered, after, hSplit, -, hRun⟩
    cases before with
    | nil =>
      cases gathered with
      | nil => exact absurd rfl hRun.nonempty
      | cons y gathered =>
        obtain ⟨rfl, -⟩ := List.cons.inj hSplit
        rw [hRun.dropped x List.mem_cons_self] at hKept
        cases hKept
    | cons y before =>
      obtain ⟨rfl, rfl⟩ := List.cons.inj hSplit
      exact ⟨before, gathered, after, rfl, False.elim, (longestRun_cons.mp hRun).1⟩
  · rintro ⟨before, gathered, after, rfl, -, hRun⟩
    exact ⟨x :: before, gathered, after, rfl, fun _ => List.cons_ne_nil _ _,
      longestRun_cons.mpr ⟨hRun, fun _ => hKept⟩⟩

theorem hasRun_cons_dropped {x : α} {xs : List α} (hDropped : kept x = false) :
    HasRun kept item True (x :: xs) index run ↔ HasRun kept item True xs (index + 1) run := by
  constructor
  · rintro ⟨before, gathered, after, hSplit, hBehind, hRun⟩
    cases before with
    | nil => exact absurd rfl (hBehind trivial)
    | cons y before =>
      obtain ⟨rfl, rfl⟩ := List.cons.inj hSplit
      obtain ⟨hRest, hFirst⟩ := longestRun_cons.mp hRun
      refine ⟨before, gathered, after, rfl, fun _ hNone => ?_, hRest⟩
      rw [hFirst hNone] at hDropped
      cases hDropped
  · rintro ⟨before, gathered, after, rfl, hBehind, hRun⟩
    exact ⟨x :: before, gathered, after, rfl, fun _ => List.cons_ne_nil _ _,
      longestRun_cons.mpr ⟨hRun, fun hNone => absurd hNone (hBehind trivial)⟩⟩

def GoesOn (kept : α → Bool) (item : α → β) (xs : List α) (start : Nat) (items : List β)
    (run : Nat × List β) : Prop :=
  ∃ gathered after, xs = gathered ++ after ∧ run = (start, items ++ gathered.map item) ∧
    (∀ x ∈ gathered, kept x = false) ∧ ∀ x ∈ after.head?, kept x = true

theorem goesOn_cons_dropped {x : α} {xs : List α} {start : Nat} {items : List β}
    (hDropped : kept x = false) :
    GoesOn kept item (x :: xs) start items run ↔ GoesOn kept item xs start (items ++ [item x]) run := by
  constructor
  · rintro ⟨gathered, after, hSplit, hRun, hGathered, hNext⟩
    cases gathered with
    | nil =>
      obtain rfl : x :: xs = after := hSplit
      have hKept := hNext x rfl
      rw [hDropped] at hKept
      cases hKept
    | cons y gathered =>
      obtain ⟨rfl, rfl⟩ := List.cons.inj hSplit
      exact ⟨gathered, after, rfl, by simpa using hRun, (List.forall_mem_cons.mp hGathered).2, hNext⟩
  · rintro ⟨gathered, after, rfl, rfl, hGathered, hNext⟩
    exact ⟨x :: gathered, after, rfl, by simp, List.forall_mem_cons.mpr ⟨hDropped, hGathered⟩, hNext⟩

theorem hasRun_of_dropped {x : α} {xs : List α} (hDropped : kept x = false) :
    HasRun kept item False (x :: xs) index run ↔
      GoesOn kept item (x :: xs) index [] run ∨ HasRun kept item True (x :: xs) index run := by
  constructor
  · rintro ⟨before, gathered, after, hSplit, -, hRun⟩
    cases before with
    | nil =>
      exact .inl ⟨gathered, after, hSplit, Prod.ext hRun.starts hRun.items, hRun.dropped, hRun.next⟩
    | cons y before =>
      exact .inr ⟨y :: before, gathered, after, hSplit, fun _ => List.cons_ne_nil _ _, hRun⟩
  · rintro (⟨gathered, after, hSplit, rfl, hGathered, hNext⟩ | ⟨before, gathered, after, hSplit, -, hRun⟩)
    · refine ⟨[], gathered, after, hSplit, False.elim, rfl, rfl, ?_, hGathered, by simp, hNext⟩
      rintro rfl
      obtain rfl : x :: xs = after := hSplit
      rw [hNext x rfl] at hDropped
      cases hDropped
    · exact ⟨before, gathered, after, hSplit, False.elim, hRun⟩

theorem mem_runs_gathered {xs : List α} (start : Nat) (items : List β) :
    (run ∈ runs kept item xs index (some (start, items)) ↔
      GoesOn kept item xs start items run ∨ HasRun kept item True xs index run) ∧
    (run ∈ runs kept item xs index none ↔ HasRun kept item False xs index run) := by
  induction xs generalizing index start items with
  | nil =>
    have hNone (behind : Prop) : ¬HasRun kept item behind [] index run := by
      rintro ⟨before, gathered, after, hSplit, -, hRun⟩
      exact hRun.nonempty (List.append_eq_nil_iff.mp (List.append_eq_nil_iff.mp hSplit.symm).1).2
    constructor
    · rw [runs, Option.toList_some, List.mem_singleton, or_iff_left (hNone True)]
      constructor
      · rintro rfl
        exact ⟨[], [], rfl, by simp, by simp, by simp⟩
      · rintro ⟨gathered, after, hSplit, rfl, -⟩
        obtain ⟨rfl, rfl⟩ := List.append_eq_nil_iff.mp hSplit.symm
        simp
    · exact iff_of_false List.not_mem_nil (hNone False)
  | cons x xs ih =>
    rw [runs, runs]
    cases hKept : kept x with
    | true =>
      rw [if_pos rfl, if_pos rfl, Option.toList_some, List.singleton_append, List.mem_cons,
        Option.toList_none, List.nil_append, hasRun_cons_kept hKept, hasRun_cons_kept hKept,
        (ih 0 []).2]
      refine ⟨or_congr_left ?_, Iff.rfl⟩
      constructor
      · rintro rfl
        exact ⟨[], x :: xs, rfl, by simp, by simp, by simpa using hKept⟩
      · rintro ⟨gathered, after, hSplit, hRun, hGathered, -⟩
        cases gathered with
        | nil => simpa using hRun
        | cons y gathered =>
          obtain ⟨rfl, -⟩ := List.cons.inj hSplit
          rw [hGathered x List.mem_cons_self] at hKept
          cases hKept
    | false =>
      rw [if_neg Bool.false_ne_true, if_neg Bool.false_ne_true, (ih _ _).1, (ih _ _).1,
        hasRun_of_dropped hKept, hasRun_cons_dropped hKept, goesOn_cons_dropped hKept,
        goesOn_cons_dropped hKept]
      exact ⟨Iff.rfl, Iff.rfl⟩
theorem mem_runs_iff {xs : List α} : run ∈ runs kept item xs 0 none ↔
    ∃ before gathered after, xs = before ++ gathered ++ after ∧
      LongestRun kept item before gathered after 0 run := by
  rw [(mem_runs_gathered 0 []).2]
  simp [HasRun]

end Runs

section Sequences

variable {κ α β : Type} [DecidableEq κ]

theorem sublist_eq_filter {xs zs : List κ} (h : xs.Sublist zs) (hNodup : zs.Nodup) :
    xs = zs.filter (· ∈ xs) := by
  induction h with
  | slnil => rfl
  | @cons xs zs z h ih =>
    obtain ⟨hz, hRest⟩ := List.nodup_cons.mp hNodup
    rw [List.filter_cons_of_neg (by simpa using fun hIn => hz (h.subset hIn))]
    exact ih hRest
  | @cons_cons xs zs z h ih =>
    obtain ⟨hz, hRest⟩ := List.nodup_cons.mp hNodup
    rw [List.filter_cons_of_pos (by simp)]
    have hSame : zs.filter (· ∈ z :: xs) = zs.filter (· ∈ xs) := by
      refine List.filter_congr fun x hx => ?_
      have hNe : x ≠ z := fun hEq => hz (hEq ▸ hx)
      simp [hNe]
    rw [hSame]
    exact congrArg (z :: ·) (ih hRest)

/-- Sublists of a list without duplicates have what they share in one order. -/
theorem filter_mem_comm {xs ys zs : List κ} (hx : xs.Sublist zs) (hy : ys.Sublist zs)
    (hNodup : zs.Nodup) : xs.filter (· ∈ ys) = ys.filter (· ∈ xs) := by
  have hLeft := sublist_eq_filter ((List.filter_sublist (p := (· ∈ ys))).trans hx) hNodup
  have hRight := sublist_eq_filter ((List.filter_sublist (p := (· ∈ xs))).trans hy) hNodup
  rw [hLeft, hRight]
  refine List.filter_congr fun z _ => ?_
  simp [and_comm]

variable {xs ys : List (κ × α)}

/-- The entries under the keys of another list, where those keys are in one order and have one item
in both. -/
theorem map_filter_shared {item : κ × α → β} {zs : List κ} (hx : (xs.map Prod.fst).Sublist zs)
    (hy : (ys.map Prod.fst).Sublist zs) (hNodup : zs.Nodup)
    (hSame : ∀ x ∈ xs, ∀ y ∈ ys, x.1 = y.1 → item x = item y) :
    (xs.filter fun x => x.1 ∈ ys.map Prod.fst).map item =
      (ys.filter fun y => y.1 ∈ xs.map Prod.fst).map item := by
  have hKeys : ((xs.filter fun x => x.1 ∈ ys.map Prod.fst).map Prod.fst) =
      (ys.filter fun y => y.1 ∈ xs.map Prod.fst).map Prod.fst := by
    have hComm := filter_mem_comm hx hy hNodup
    rwa [List.filter_map, List.filter_map] at hComm
  have hMem : ∀ x ∈ xs.filter (fun x => x.1 ∈ ys.map Prod.fst),
      ∀ y ∈ ys.filter (fun y => y.1 ∈ xs.map Prod.fst), x.1 = y.1 → item x = item y :=
    fun x hx y hy => hSame x (List.mem_of_mem_filter hx) y (List.mem_of_mem_filter hy)
  generalize xs.filter (fun x => x.1 ∈ ys.map Prod.fst) = as at hKeys hMem
  generalize ys.filter (fun y => y.1 ∈ xs.map Prod.fst) = bs at hKeys hMem
  induction as generalizing bs with
  | nil =>
    obtain rfl : bs = [] := by simpa using hKeys.symm
    rfl
  | cons a as ih =>
    cases bs with
    | nil => cases hKeys
    | cons b bs =>
      obtain ⟨hHead, hTail⟩ := List.cons.inj hKeys
      rw [List.map_cons, List.map_cons,
        hMem a List.mem_cons_self b List.mem_cons_self hHead]
      exact congrArg _ (ih bs hTail fun x hx y hy =>
        hMem x (List.mem_cons_of_mem _ hx) y (List.mem_cons_of_mem _ hy))

/-- Taking out what the other list lacks and putting in what this one lacked makes the one list of
the other. -/
theorem insertRuns_removeRuns {item : κ × α → β} {zs : List κ} (hx : (xs.map Prod.fst).Sublist zs)
    (hy : (ys.map Prod.fst).Sublist zs) (hNodup : zs.Nodup)
    (hSame : ∀ x ∈ xs, ∀ y ∈ ys, x.1 = y.1 → item x = item y) :
    insertRuns (runs (fun y => y.1 ∈ xs.map Prod.fst) item ys 0 none)
      (removeRuns (runs (fun x => x.1 ∈ ys.map Prod.fst) item xs 0 none) (xs.map item)) =
        ys.map item := by
  rw [removeRuns_runs, map_filter_shared hx hy hNodup hSame, insertRuns_runs]

end Sequences

section Lists

variable {κ β : Type} {r : κ → κ → Prop} {R R' S : κ → β → Prop} {bs bs' : List β}

/-- A list of all that is given for some key and nothing else, in the order of the keys. -/
def Lists (r : κ → κ → Prop) (R : κ → β → Prop) (bs : List β) : Prop :=
  ∃ keys : List κ, keys.Pairwise r ∧ List.Forall₂ R keys bs ∧ ∀ k b, R k b → b ∈ bs

theorem Lists.nil (h : ∀ k b, ¬R k b) : Lists r R [] :=
  ⟨[], List.Pairwise.nil, .nil, fun k b hb => absurd hb (h k b)⟩

theorem Lists.single (k : κ) (b : β) : Lists r (fun k' b' => k' = k ∧ b' = b) [b] :=
  ⟨[k], List.pairwise_singleton _ _, .cons ⟨rfl, rfl⟩ .nil,
    fun _ _ h => List.mem_singleton.mpr h.2⟩

theorem Lists.at (hRefl : ∀ k, r k k) (k : κ) (bs : List β) :
    Lists r (fun k' b => k' = k ∧ b ∈ bs) bs := by
  refine ⟨List.replicate bs.length k, List.pairwise_replicate.mpr (.inr (hRefl k)), ?_,
    fun _ b h => h.2⟩
  rw [List.forall₂_iff_get]
  exact ⟨List.length_replicate, fun i _ hi => by simp⟩

theorem exists_of_forall₂ {keys : List κ} (h : List.Forall₂ R keys bs) {k : κ} (hk : k ∈ keys) :
    ∃ b, R k b := by
  induction h with
  | nil => cases hk
  | cons hHead _ ih =>
    obtain rfl | hLater := List.mem_cons.mp hk
    · exact ⟨_, hHead⟩
    · exact ih hLater

theorem Lists.eq_nil (h : Lists r R bs) (hNone : ∀ k b, ¬R k b) : bs = [] := by
  obtain ⟨keys, -, hAll, -⟩ := h
  cases hAll with
  | nil => rfl
  | cons hHead _ => exact absurd hHead (hNone _ _)

theorem Lists.congr (h : Lists r R bs) (hSame : ∀ k b, S k b ↔ R k b) : Lists r S bs := by
  obtain ⟨keys, hOrder, hAll, hComplete⟩ := h
  exact ⟨keys, hOrder, hAll.imp fun k b hb => (hSame k b).mpr hb,
    fun k b hb => hComplete k b ((hSame k b).mp hb)⟩

theorem Lists.append (h : Lists r R bs) (h' : Lists r R' bs')
    (hBefore : ∀ k b k' b', R k b → R' k' b' → r k k') (hEither : ∀ k b, S k b ↔ R k b ∨ R' k b) :
    Lists r S (bs ++ bs') := by
  obtain ⟨keys, hOrder, hAll, hComplete⟩ := h
  obtain ⟨keys', hOrder', hAll', hComplete'⟩ := h'
  refine ⟨keys ++ keys', List.pairwise_append.mpr ⟨hOrder, hOrder', fun k hk k' hk' => ?_⟩,
    List.rel_append (hAll.imp fun k b hb => (hEither k b).mpr (.inl hb))
      (hAll'.imp fun k b hb => (hEither k b).mpr (.inr hb)), fun k b hb => ?_⟩
  · obtain ⟨b, hb⟩ := exists_of_forall₂ hAll hk
    obtain ⟨b', hb'⟩ := exists_of_forall₂ hAll' hk'
    exact hBefore k b k' b' hb hb'
  · obtain hb | hb := (hEither k b).mp hb
    · exact List.mem_append_left _ (hComplete k b hb)
    · exact List.mem_append_right _ (hComplete' k b hb)

end Lists

section Entries

variable {κ α β : Type}

/-- One pass over two lists of entries that are sorted by key. -/
def mergeJoin [LinearOrder κ] (removed added : κ × α → β) (changed : κ × α → κ × α → Option β) :
    List (κ × α) → List (κ × α) → List β
  | [], ys => ys.map added
  | x :: xs, [] => (x :: xs).map removed
  | x :: xs, y :: ys =>
    if x.1 < y.1 then removed x :: mergeJoin removed added changed xs (y :: ys)
    else if y.1 < x.1 then added y :: mergeJoin removed added changed (x :: xs) ys
    else (changed x y).toList ++ mergeJoin removed added changed xs ys
termination_by xs ys => xs.length + ys.length

section Joins

variable (removed added : κ × α → β) (changed : κ × α → κ × α → Option β) (xs ys : List (κ × α))

/-- What a key comes to: an entry only in the one list, one only in the other, or one in both. -/
inductive Joins : κ → β → Prop
  | removed {x : κ × α} : x ∈ xs → x.1 ∉ ys.map Prod.fst → Joins x.1 (removed x)
  | added {y : κ × α} : y ∈ ys → y.1 ∉ xs.map Prod.fst → Joins y.1 (added y)
  | changed {x y : κ × α} {b : β} : x ∈ xs → y ∈ ys → x.1 = y.1 → changed x y = some b → Joins x.1 b

end Joins

variable {removed added : κ × α → β} {changed : κ × α → κ × α → Option β} {xs ys : List (κ × α)}
  {k : κ} {b : β}

theorem Joins.mem_keys (h : Joins removed added changed xs ys k b) :
    k ∈ xs.map Prod.fst ∨ k ∈ ys.map Prod.fst := by
  cases h with
  | removed hx => exact .inl (List.mem_map_of_mem hx)
  | added hy => exact .inr (List.mem_map_of_mem hy)
  | changed hx => exact .inl (List.mem_map_of_mem hx)

/-- A key only the first list has. -/
theorem joins_cons_left {x : κ × α} (hx : x.1 ∉ xs.map Prod.fst) (hy : x.1 ∉ ys.map Prod.fst) :
    Joins removed added changed (x :: xs) ys k b ↔
      (k = x.1 ∧ b = removed x) ∨ Joins removed added changed xs ys k b := by
  constructor
  · intro h
    cases h with
    | removed hIn hOut =>
      obtain rfl | hLater := List.mem_cons.mp hIn
      · exact .inl ⟨rfl, rfl⟩
      · exact .inr (.removed hLater hOut)
    | added hIn hOut => exact .inr (.added hIn fun hKey => hOut (List.mem_cons_of_mem _ hKey))
    | changed hIn hOther hSame hChanged =>
      obtain rfl | hLater := List.mem_cons.mp hIn
      · exact absurd (List.mem_map.mpr ⟨_, hOther, hSame.symm⟩) hy
      · exact .inr (.changed hLater hOther hSame hChanged)
  · rintro (⟨rfl, rfl⟩ | h)
    · exact .removed List.mem_cons_self hy
    cases h with
    | removed hIn hOut => exact .removed (List.mem_cons_of_mem _ hIn) hOut
    | @added y hIn hOut =>
      refine .added hIn fun hKey => ?_
      obtain hHead | hLater := List.mem_cons.mp hKey
      · exact hy (List.mem_map.mpr ⟨y, hIn, hHead⟩)
      · exact hOut hLater
    | changed hIn hOther hSame hChanged =>
      exact .changed (List.mem_cons_of_mem _ hIn) hOther hSame hChanged

/-- A key only the second list has. -/
theorem joins_cons_right {y : κ × α} (hx : y.1 ∉ xs.map Prod.fst) (hy : y.1 ∉ ys.map Prod.fst) :
    Joins removed added changed xs (y :: ys) k b ↔
      (k = y.1 ∧ b = added y) ∨ Joins removed added changed xs ys k b := by
  constructor
  · intro h
    cases h with
    | removed hIn hOut => exact .inr (.removed hIn fun hKey => hOut (List.mem_cons_of_mem _ hKey))
    | added hIn hOut =>
      obtain rfl | hLater := List.mem_cons.mp hIn
      · exact .inl ⟨rfl, rfl⟩
      · exact .inr (.added hLater hOut)
    | changed hIn hOther hSame hChanged =>
      obtain rfl | hLater := List.mem_cons.mp hOther
      · exact absurd (List.mem_map.mpr ⟨_, hIn, hSame⟩) hx
      · exact .inr (.changed hIn hLater hSame hChanged)
  · rintro (⟨rfl, rfl⟩ | h)
    · exact .added List.mem_cons_self hx
    cases h with
    | @removed x hIn hOut =>
      refine .removed hIn fun hKey => ?_
      obtain hHead | hLater := List.mem_cons.mp hKey
      · exact hx (List.mem_map.mpr ⟨x, hIn, hHead⟩)
      · exact hOut hLater
    | added hIn hOut => exact .added (List.mem_cons_of_mem _ hIn) hOut
    | changed hIn hOther hSame hChanged =>
      exact .changed hIn (List.mem_cons_of_mem _ hOther) hSame hChanged

/-- A key both lists have. -/
theorem joins_cons_both {x y : κ × α} (hSame : x.1 = y.1) (hx : x.1 ∉ xs.map Prod.fst)
    (hy : y.1 ∉ ys.map Prod.fst) :
    Joins removed added changed (x :: xs) (y :: ys) k b ↔
      (k = x.1 ∧ changed x y = some b) ∨ Joins removed added changed xs ys k b := by
  constructor
  · intro h
    cases h with
    | removed hIn hOut =>
      obtain rfl | hLater := List.mem_cons.mp hIn
      · exact absurd (List.mem_cons.mpr (.inl hSame)) hOut
      · exact .inr (.removed hLater fun hKey => hOut (List.mem_cons_of_mem _ hKey))
    | added hIn hOut =>
      obtain rfl | hLater := List.mem_cons.mp hIn
      · exact absurd (List.mem_cons.mpr (.inl hSame.symm)) hOut
      · exact .inr (.added hLater fun hKey => hOut (List.mem_cons_of_mem _ hKey))
    | changed hIn hOther hKeys hChanged =>
      obtain rfl | hLater := List.mem_cons.mp hIn
      · obtain rfl | hLater := List.mem_cons.mp hOther
        · exact .inl ⟨rfl, hChanged⟩
        · exact absurd (List.mem_map.mpr ⟨_, hLater, hKeys.symm.trans hSame⟩) hy
      · obtain rfl | hOther := List.mem_cons.mp hOther
        · exact absurd (List.mem_map.mpr ⟨_, hLater, hKeys.trans hSame.symm⟩) hx
        · exact .inr (.changed hLater hOther hKeys hChanged)
  · rintro (⟨rfl, hChanged⟩ | h)
    · exact .changed List.mem_cons_self List.mem_cons_self hSame hChanged
    cases h with
    | @removed z hIn hOut =>
      refine .removed (List.mem_cons_of_mem _ hIn) fun hKey => ?_
      obtain hHead | hLater := List.mem_cons.mp hKey
      · exact hx (List.mem_map.mpr ⟨z, hIn, hHead.trans hSame.symm⟩)
      · exact hOut hLater
    | @added z hIn hOut =>
      refine .added (List.mem_cons_of_mem _ hIn) fun hKey => ?_
      obtain hHead | hLater := List.mem_cons.mp hKey
      · exact hy (List.mem_map.mpr ⟨z, hIn, hHead.trans hSame⟩)
      · exact hOut hLater
    | changed hIn hOther hKeys hChanged =>
      exact .changed (List.mem_cons_of_mem _ hIn) (List.mem_cons_of_mem _ hOther) hKeys hChanged

theorem Joins.key_gt [LinearOrder κ] (h : Joins removed added changed xs ys k b) {k₀ : κ}
    (hx : ∀ k ∈ xs.map Prod.fst, k₀ < k) (hy : ∀ k ∈ ys.map Prod.fst, k₀ < k) : k₀ < k :=
  h.mem_keys.elim (hx k) (hy k)

section Sorted

variable [LinearOrder κ]

theorem notMem_of_gt {k₀ : κ} {keys : List κ} (h : ∀ k ∈ keys, k₀ < k) : k₀ ∉ keys :=
  fun hIn => lt_irrefl _ (h _ hIn)

theorem lists_added (h : (ys.map Prod.fst).Pairwise (· < ·)) :
    Lists (· < ·) (Joins removed added changed [] ys) (ys.map added) := by
  induction ys with
  | nil => exact .nil fun k b h => h.mem_keys.elim List.not_mem_nil List.not_mem_nil
  | cons y ys ih =>
    obtain ⟨hFirst, hRest⟩ := List.pairwise_cons.mp h
    exact (Lists.single y.1 (added y)).append (ih hRest)
      (fun k b k' b' hk h => hk.1 ▸ h.key_gt (fun _ hNone => absurd hNone List.not_mem_nil) hFirst)
      fun k b => joins_cons_right List.not_mem_nil (notMem_of_gt hFirst)

theorem lists_removed (h : (xs.map Prod.fst).Pairwise (· < ·)) :
    Lists (· < ·) (Joins removed added changed xs []) (xs.map removed) := by
  induction xs with
  | nil => exact .nil fun k b h => h.mem_keys.elim List.not_mem_nil List.not_mem_nil
  | cons x xs ih =>
    obtain ⟨hFirst, hRest⟩ := List.pairwise_cons.mp h
    exact (Lists.single x.1 (removed x)).append (ih hRest)
      (fun k b k' b' hk h => hk.1 ▸ h.key_gt hFirst (fun _ hNone => absurd hNone List.not_mem_nil))
      fun k b => joins_cons_left (notMem_of_gt hFirst) List.not_mem_nil

/-- One pass gives what every key comes to, in key order, and no more. -/
theorem lists_mergeJoin (hx : (xs.map Prod.fst).Pairwise (· < ·))
    (hy : (ys.map Prod.fst).Pairwise (· < ·)) :
    Lists (· < ·) (Joins removed added changed xs ys) (mergeJoin removed added changed xs ys) := by
  fun_induction mergeJoin removed added changed xs ys with
  | case1 ys => exact lists_added hy
  | case2 x xs => exact lists_removed hx
  | case3 x xs y ys hLt ih =>
    obtain ⟨hFirst, hRest⟩ := List.pairwise_cons.mp hx
    have hOther : ∀ k ∈ (y :: ys).map Prod.fst, x.1 < k := fun k hk =>
      (List.mem_cons.mp hk).elim (fun hEq => hEq ▸ hLt)
        fun hLater => hLt.trans ((List.pairwise_cons.mp hy).1 k hLater)
    exact (Lists.single x.1 (removed x)).append (ih hRest hy)
      (fun k b k' b' hk h => hk.1 ▸ h.key_gt hFirst hOther)
      fun k b => joins_cons_left (notMem_of_gt hFirst) (notMem_of_gt hOther)
  | case4 x xs y ys hLt hGt ih =>
    obtain ⟨hFirst, hRest⟩ := List.pairwise_cons.mp hy
    have hOther : ∀ k ∈ (x :: xs).map Prod.fst, y.1 < k := fun k hk =>
      (List.mem_cons.mp hk).elim (fun hEq => hEq ▸ hGt)
        fun hLater => hGt.trans ((List.pairwise_cons.mp hx).1 k hLater)
    exact (Lists.single y.1 (added y)).append (ih hx hRest)
      (fun k b k' b' hk h => hk.1 ▸ h.key_gt hOther hFirst)
      fun k b => joins_cons_right (notMem_of_gt hOther) (notMem_of_gt hFirst)
  | case5 x xs y ys hLt hGt ih =>
    have hSame : x.1 = y.1 := le_antisymm (not_lt.mp hGt) (not_lt.mp hLt)
    obtain ⟨hFirst, hRest⟩ := List.pairwise_cons.mp hx
    obtain ⟨hOther, hRest'⟩ := List.pairwise_cons.mp hy
    rw [← hSame] at hOther
    have hHead : Lists (· < ·) (fun k b => k = x.1 ∧ changed x y = some b) (changed x y).toList := by
      cases hChanged : changed x y with
      | none => exact .nil fun k b h => by cases h.2
      | some b =>
        refine (Lists.single x.1 b).congr fun k b' => and_congr_right fun _ => ?_
        rw [Option.some.injEq, eq_comm]
    exact hHead.append (ih hRest hRest') (fun k b k' b' hk h => hk.1 ▸ h.key_gt hFirst hOther)
      fun k b => joins_cons_both hSame (notMem_of_gt hFirst) (hSame ▸ notMem_of_gt hOther)

end Sorted

end Entries

end Lib

end CrdtSync
