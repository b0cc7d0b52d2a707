import Mathlib.Order.Defs.LinearOrder
import Mathlib.Data.Prod.Lex
import Mathlib.Data.List.Forall2
import Mathlib.Data.List.Sort
import Std.Data.ExtTreeMap

/-!
# Ordered maps

The reads of an updated map as plain case splits on the key, and the range reads:
the greatest entry at or below a key and the least entry at or above one.
-/

namespace CrdtSync.Lib

open Std (ExtTreeMap)

/-- Pairs compare equal only when they are. -/
instance lawfulEqOrd_lex {α β : Type*} [Ord α] [Ord β] [Std.LawfulEqOrd α] [Std.LawfulEqOrd β] :
    Std.LawfulEqOrd (α ×ₗ β) where
  compare_self {a} := by
    change (compare (ofLex a).1 (ofLex a).1).then (compare (ofLex a).2 (ofLex a).2) = .eq
    simp
  eq_of_compare {a b} h := by
    have h' : (compare (ofLex a).1 (ofLex b).1).then (compare (ofLex a).2 (ofLex b).2) = .eq := h
    rw [Ordering.then_eq_eq, Std.compare_eq_iff_eq, Std.compare_eq_iff_eq] at h'
    exact ofLex.injective (Prod.ext h'.1 h'.2)

section Reads

variable {K V : Type*} [Ord K] [DecidableEq K] [Std.TransOrd K] [Std.LawfulEqOrd K]

theorem getElem?_insert_ite (m : ExtTreeMap K V compare) (a : K) (v : V) (k : K) :
    (m.insert a v)[k]? = if k = a then some v else m[k]? := by
  simp only [ExtTreeMap.getElem?_insert, Std.compare_eq_iff_eq, @eq_comm K k a]

theorem getElem?_erase_ite (m : ExtTreeMap K V compare) (a k : K) :
    (m.erase a)[k]? = if k = a then none else m[k]? := by
  simp only [ExtTreeMap.getElem?_erase, Std.compare_eq_iff_eq, @eq_comm K k a]

theorem getElem?_alter_ite (m : ExtTreeMap K V compare) (a : K) (f : Option V → Option V) (k : K) :
    (m.alter a f)[k]? = if k = a then f m[a]? else m[k]? := by
  simp only [ExtTreeMap.getElem?_alter, Std.compare_eq_iff_eq, @eq_comm K k a]

omit [DecidableEq K] in
theorem mem_toList_iff {m : ExtTreeMap K V compare} {k : K} {v : V} :
    (k, v) ∈ m.toList ↔ m[k]? = some v := ExtTreeMap.mem_toList_iff_getElem?_eq_some

omit [DecidableEq K] in
theorem pairwise_ne_entries (m : ExtTreeMap K V compare) : m.toList.Pairwise fun a b => a.1 ≠ b.1 :=
  m.distinct_keys_toList.imp fun h hEq => h (Std.compare_eq_iff_eq.mpr hEq)

omit [Ord K] [Std.TransOrd K] [Std.LawfulEqOrd K] in
/-- Where keys are distinct, the first entry of a key is its entry. -/
theorem find?_key_eq_some {entries : List (K × V)} (hKeys : entries.Pairwise fun a b => a.1 ≠ b.1)
    {k : K} {v : V} :
    (entries.find? fun e => e.1 = k).map Prod.snd = some v ↔ (k, v) ∈ entries := by
  induction entries with
  | nil => simp
  | cons e entries ih =>
    obtain ⟨hHead, hTail⟩ := List.pairwise_cons.mp hKeys
    obtain ⟨key, value⟩ := e
    rw [List.find?_cons]
    by_cases hKey : key = k
    · subst hKey
      have hLater : (key, v) ∉ entries := fun hIn => hHead _ hIn rfl
      simp [hLater, eq_comm]
    · simp [hKey, Ne.symm hKey, ← ih hTail]

theorem getElem?_foldl_insertIfNew (entries : List (K × V)) (m : ExtTreeMap K V compare) (k : K) :
    (entries.foldl (fun m e => m.insertIfNew e.1 e.2) m)[k]? =
      m[k]?.or ((entries.find? fun e => e.1 = k).map Prod.snd) := by
  induction entries generalizing m with
  | nil => simp
  | cons e entries ih =>
    rw [List.foldl_cons, ih, List.find?_cons, ExtTreeMap.getElem?_insertIfNew]
    by_cases hKey : e.1 = k
    · subst hKey
      cases hm : m[e.1]? with
      | none =>
        have hNot : e.1 ∉ m := by
          rw [ExtTreeMap.mem_iff_isSome_getElem?, hm]
          exact Bool.false_ne_true
        simp [hNot]
      | some v =>
        have hIn : e.1 ∈ m := ExtTreeMap.mem_iff_isSome_getElem?.mpr (by rw [hm]; rfl)
        simp [hIn]
    · simp [hKey]

/-- Raise the entry of a key to at least `v`. -/
def raiseTo (m : ExtTreeMap K Nat compare) (k : K) (v : Nat) : ExtTreeMap K Nat compare :=
  m.insert k (max (m[k]?.getD 0) v)

theorem getElem?_raiseTo (m : ExtTreeMap K Nat compare) (k k' : K) (v : Nat) :
    (raiseTo m k v)[k']? = if k' = k then some (max (m[k]?.getD 0) v) else m[k']? :=
  getElem?_insert_ite ..

theorem raiseTo_comm (m : ExtTreeMap K Nat compare) (k k' : K) (v v' : Nat) :
    raiseTo (raiseTo m k v) k' v' = raiseTo (raiseTo m k' v') k v := by
  apply ExtTreeMap.ext_getElem?
  intro key
  simp only [getElem?_raiseTo]
  by_cases hSame : k = k'
  · subst hSame
    have hSwap : ∀ old : Nat, max (max old v) v' = max (max old v') v := by omega
    simp only [if_true, Option.getD_some, hSwap]
    split <;> rfl
  · rw [if_neg hSame, if_neg (Ne.symm hSame)]
    split
    next hKey =>
      rw [if_neg fun hOther => hSame (hOther.symm.trans hKey)]
    next => rfl

theorem raiseTo_idem (m : ExtTreeMap K Nat compare) (k : K) (v : Nat) :
    raiseTo (raiseTo m k v) k v = raiseTo m k v := by
  apply ExtTreeMap.ext_getElem?
  intro key
  simp only [getElem?_raiseTo, if_true, Option.getD_some, max_assoc, max_self]
  split <;> rfl

/-- Two entries may be rewritten in either order, and one entry where the rewrites commute. -/
theorem modify_comm (m : ExtTreeMap K V compare) {a b : K} {f g : V → V}
    (h : a = b → ∀ v, f (g v) = g (f v)) :
    (m.modify a f).modify b g = (m.modify b g).modify a f := by
  refine ExtTreeMap.ext_getElem? fun k => ?_
  simp only [ExtTreeMap.getElem?_modify, Std.compare_eq_iff_eq]
  by_cases hab : a = b
  · subst hab
    by_cases hk : a = k
    · simp only [hk, if_true, Option.map_map]
      congr 1
      funext v
      exact (h rfl v).symm
    · simp only [if_neg hk]
  · by_cases hk : a = k
    · subst hk
      simp only [if_true, if_neg (Ne.symm hab)]
    · simp only [if_neg hk, if_neg hab]

/-! ### What all entries satisfy -/

/-- Every entry satisfies `P`. -/
def AllEntries (P : K → V → Prop) (m : ExtTreeMap K V compare) : Prop :=
  ∀ k v, m[k]? = some v → P k v

namespace AllEntries

variable {P Q : K → V → Prop} {m : ExtTreeMap K V compare}

omit [DecidableEq K] [Std.LawfulEqOrd K] in
theorem empty : AllEntries P (∅ : ExtTreeMap K V compare) := by
  intro k v h
  simp at h

omit [DecidableEq K] [Std.LawfulEqOrd K] in
theorem mono (h : AllEntries P m) (hPQ : ∀ k v, P k v → Q k v) : AllEntries Q m :=
  fun k v hEntry => hPQ k v (h k v hEntry)

theorem insert (h : AllEntries P m) {a : K} {v : V} (hv : P a v) : AllEntries P (m.insert a v) := by
  intro k w hEntry
  rw [getElem?_insert_ite] at hEntry
  split at hEntry
  next hKey =>
    obtain rfl := Option.some.inj hEntry
    exact hKey ▸ hv
  next => exact h k w hEntry

theorem erase (h : AllEntries P m) (a : K) : AllEntries P (m.erase a) := by
  intro k w hEntry
  rw [getElem?_erase_ite] at hEntry
  split at hEntry
  · cases hEntry
  · exact h k w hEntry

omit [DecidableEq K] in
theorem insertIfNew (h : AllEntries P m) {a : K} {v : V} (hv : P a v) :
    AllEntries P (m.insertIfNew a v) := by
  intro k w hEntry
  rw [ExtTreeMap.getElem?_insertIfNew] at hEntry
  split at hEntry
  next hKey =>
    obtain rfl := Option.some.inj hEntry
    exact (Std.compare_eq_iff_eq.mp hKey.1) ▸ hv
  next => exact h k w hEntry

omit [DecidableEq K] in
theorem modify (h : AllEntries P m) (a : K) {f : V → V} (hf : ∀ k v, P k v → P k (f v)) :
    AllEntries P (m.modify a f) := by
  intro k w hEntry
  rw [ExtTreeMap.getElem?_modify] at hEntry
  split at hEntry
  next hKey =>
    obtain rfl := Std.compare_eq_iff_eq.mp hKey
    obtain ⟨v, hOld, rfl⟩ := Option.map_eq_some_iff.mp hEntry
    exact hf a v (h a v hOld)
  next => exact h k w hEntry

omit [DecidableEq K] in
theorem map {W : Type*} {R : K → W → Prop} (h : AllEntries P m) {f : K → V → W}
    (hf : ∀ k v, P k v → R k (f k v)) : AllEntries R (m.map f) := by
  intro k w hEntry
  rw [ExtTreeMap.getElem?_map] at hEntry
  obtain ⟨v, hOld, rfl⟩ := Option.map_eq_some_iff.mp hEntry
  exact hf k v (h k v hOld)

omit [DecidableEq K] in
theorem filter (h : AllEntries P m) (keep : K → V → Bool) : AllEntries P (m.filter keep) := by
  intro k v hEntry
  rw [ExtTreeMap.getElem?_filter', Option.filter_eq_some_iff] at hEntry
  exact h k v hEntry.1

end AllEntries

/-! ### Maps that differ in their values alone -/

/-- The same keys, with related values. -/
def EntriesAgree (R : V → V → Prop) (m m' : ExtTreeMap K V compare) : Prop :=
  ∀ k : K, Option.Rel R m[k]? m'[k]?

namespace EntriesAgree

variable {R : V → V → Prop} {m m' : ExtTreeMap K V compare}

omit [DecidableEq K] [Std.LawfulEqOrd K] in
theorem refl (hR : ∀ v, R v v) (m : ExtTreeMap K V compare) : EntriesAgree R m m := by
  intro k
  generalize m[k]? = v
  cases v with
  | none => exact .none
  | some v => exact .some (hR v)

section Keys

omit [DecidableEq K] [Std.LawfulEqOrd K]

variable (h : EntriesAgree R m m')

include h

theorem cases_at (k : K) :
    m[k]? = none ∧ m'[k]? = none ∨ ∃ v v', m[k]? = some v ∧ m'[k]? = some v' ∧ R v v' := by
  have hk := h k
  generalize m[k]? = v, m'[k]? = v' at hk
  cases hk with
  | none => exact .inl ⟨rfl, rfl⟩
  | some hR => exact .inr ⟨_, _, rfl, rfl, hR⟩

theorem symm (hR : ∀ v v', R v v' → R v' v) : EntriesAgree R m' m := by
  intro k
  obtain ⟨hNone, hNone'⟩ | ⟨v, v', hv, hv', hEntry⟩ := h.cases_at k
  · rw [hNone, hNone']
    exact .none
  · rw [hv, hv']
    exact .some (hR v v' hEntry)

theorem trans (hR : ∀ v v' v'', R v v' → R v' v'' → R v v'') {m'' : ExtTreeMap K V compare}
    (h' : EntriesAgree R m' m'') : EntriesAgree R m m'' := by
  intro k
  have hk' := h' k
  obtain ⟨hNone, hNone'⟩ | ⟨v, v', hv, hv', hEntry⟩ := h.cases_at k
  · rw [hNone'] at hk'
    rw [hNone]
    generalize m''[k]? = v'' at hk' ⊢
    cases hk'
    exact .none
  · rw [hv'] at hk'
    rw [hv]
    generalize m''[k]? = v'' at hk' ⊢
    cases hk' with
    | some hEntry' => exact .some (hR _ _ _ hEntry hEntry')

theorem isSome_eq (k : K) : m'[k]?.isSome = m[k]?.isSome := by
  obtain ⟨hNone, hNone'⟩ | ⟨v, v', hv, hv', -⟩ := h.cases_at k
  · rw [hNone, hNone']
  · rw [hv, hv']
    rfl

theorem contains_eq (k : K) : m'.contains k = m.contains k := by
  rw [ExtTreeMap.contains_eq_isSome_getElem?, ExtTreeMap.contains_eq_isSome_getElem?, h.isSome_eq]

end Keys

theorem insert (h : EntriesAgree R m m') (a : K) {v v' : V} (hv : R v v') :
    EntriesAgree R (m.insert a v) (m'.insert a v') := by
  intro k
  rw [getElem?_insert_ite, getElem?_insert_ite]
  split
  · exact .some hv
  · exact h k

theorem erase (h : EntriesAgree R m m') (a : K) : EntriesAgree R (m.erase a) (m'.erase a) := by
  intro k
  rw [getElem?_erase_ite, getElem?_erase_ite]
  split
  · exact .none
  · exact h k

omit [DecidableEq K] [Std.LawfulEqOrd K] in
theorem insertIfNew (h : EntriesAgree R m m') (a : K) {v v' : V} (hv : R v v') :
    EntriesAgree R (m.insertIfNew a v) (m'.insertIfNew a v') := by
  intro k
  have hMem : a ∈ m' ↔ a ∈ m := by
    rw [← ExtTreeMap.contains_iff_mem, ← ExtTreeMap.contains_iff_mem, h.contains_eq a]
  simp only [ExtTreeMap.getElem?_insertIfNew, hMem]
  split
  · exact .some hv
  · exact h k

omit [DecidableEq K] [Std.LawfulEqOrd K] in
theorem modify (h : EntriesAgree R m m') (a : K) {f f' : V → V}
    (hf : ∀ v v', R v v' → R (f v) (f' v')) : EntriesAgree R (m.modify a f) (m'.modify a f') := by
  intro k
  rw [ExtTreeMap.getElem?_modify, ExtTreeMap.getElem?_modify]
  split
  · obtain ⟨hNone, hNone'⟩ | ⟨v, v', hv, hv', hEntry⟩ := h.cases_at a
    · rw [hNone, hNone']
      exact .none
    · rw [hv, hv']
      exact .some (hf v v' hEntry)
  · exact h k

omit [DecidableEq K] [Std.LawfulEqOrd K] in
theorem modify_right (h : EntriesAgree R m m') (a : K) {f : V → V}
    (hf : ∀ v v', R v v' → R v (f v')) : EntriesAgree R m (m'.modify a f) := by
  intro k
  rw [ExtTreeMap.getElem?_modify]
  split
  next hKey =>
    have hSame : m[a]? = m[k]? := ExtTreeMap.getElem?_congr hKey
    rw [← hSame]
    obtain ⟨hNone, hNone'⟩ | ⟨v, v', hv, hv', hEntry⟩ := h.cases_at a
    · rw [hNone, hNone']
      exact .none
    · rw [hv, hv']
      exact .some (hf v v' hEntry)
  next => exact h k

theorem insert_right (h : EntriesAgree R m m') {a : K} {v v' : V} (hv : m[a]? = some v)
    (hv' : R v v') : EntriesAgree R m (m'.insert a v') := by
  intro k
  rw [getElem?_insert_ite]
  split
  next hKey =>
    rw [hKey, hv]
    exact .some hv'
  next => exact h k

omit [DecidableEq K] in
/-- The entries come in the same order. -/
theorem toList (h : EntriesAgree R m m') :
    List.Forall₂ (fun e e' => e.1 = e'.1 ∧ R e.2 e'.2) m.toList m'.toList := by
  have hKeys : m.toList.map Prod.fst = m'.toList.map Prod.fst := by
    have hSame : (m.map fun _ _ => ()) = m'.map fun _ _ => () := by
      refine ExtTreeMap.ext_getElem? fun k => ?_
      rw [ExtTreeMap.getElem?_map, ExtTreeMap.getElem?_map]
      obtain ⟨hNone, hNone'⟩ | ⟨v, v', hv, hv', -⟩ := h.cases_at k
      · rw [hNone, hNone']
      · rw [hv, hv']
        rfl
    have hList := congrArg (fun m : ExtTreeMap K Unit compare => m.toList.map Prod.fst) hSame
    simpa only [ExtTreeMap.toList_map, List.map_map, Function.comp_def] using hList
  have hFst : List.Forall₂ (fun e e' : K × V => e.1 = e'.1) m.toList m'.toList := by
    have hEq : List.Forall₂ Eq (m.toList.map Prod.fst) (m'.toList.map Prod.fst) :=
      hKeys ▸ List.forall₂_refl _
    rwa [List.forall₂_map_left_iff, List.forall₂_map_right_iff] at hEq
  rw [List.forall₂_iff_zip]
  refine ⟨hFst.length_eq, fun {e e'} hZip => ?_⟩
  have hSame := (List.forall₂_iff_zip.mp hFst).2 hZip
  obtain ⟨hIn, hIn'⟩ := List.of_mem_zip hZip
  refine ⟨hSame, ?_⟩
  obtain ⟨hNone, -⟩ | ⟨v, v', hv, hv', hEntry⟩ := h.cases_at e.1
  · rw [mem_toList_iff.mp hIn] at hNone
    cases hNone
  · rw [mem_toList_iff.mp hIn] at hv
    rw [hSame, mem_toList_iff.mp hIn'] at hv'
    rwa [Option.some.inj hv, Option.some.inj hv']

end EntriesAgree

/-- Steps that rewrite one key each, no two of them the same, rewrite those keys. -/
theorem read_foldl {S E K V : Type*} [DecidableEq K] {read : S → K → Option V} {step : S → E → S}
    {key : E → K} {f : E → Option V → Option V}
    (hStep : ∀ s e k, read (step s e) k = if k = key e then f e (read s k) else read s k)
    {entries : List E} (hKeys : entries.Pairwise fun a b => key a ≠ key b) (s : S) :
    (∀ e ∈ entries, read (entries.foldl step s) (key e) = f e (read s (key e))) ∧
      ∀ k, (∀ e ∈ entries, key e ≠ k) → read (entries.foldl step s) k = read s k := by
  induction entries generalizing s with
  | nil => exact ⟨fun _ he => (nomatch he), fun _ _ => rfl⟩
  | cons e entries ih =>
    obtain ⟨hHead, hTail⟩ := List.pairwise_cons.mp hKeys
    obtain ⟨hIn, hOut⟩ := ih hTail (step s e)
    refine ⟨fun e' he' => ?_, fun k hk => ?_⟩
    · rw [List.foldl_cons]
      obtain rfl | he' := List.mem_cons.mp he'
      · rw [hOut (key e') fun a ha => (hHead a ha).symm, hStep, if_pos rfl]
      · rw [hIn e' he', hStep, if_neg (hHead e' he').symm]
    · obtain ⟨hFirst, hRest⟩ := List.forall_mem_cons.mp hk
      rw [List.foldl_cons, hOut k hRest, hStep, if_neg hFirst.symm]

/-- Folding one map into another rewrites the shared keys. -/
theorem getElem?_foldl_alter_toList {W : Type*} (n : ExtTreeMap K W compare)
    (f : W → Option V → Option V) (m : ExtTreeMap K V compare) (k : K) :
    (n.toList.foldl (fun m e => m.alter e.1 (f e.2)) m)[k]? =
      match n[k]? with
      | none => m[k]?
      | some w => f w m[k]? := by
  obtain ⟨hIn, hOut⟩ := @read_foldl (ExtTreeMap K V compare) (K × W) K V _ (fun m k => m[k]?)
    (fun m e => m.alter e.1 (f e.2)) Prod.fst (fun e => f e.2) (fun m e k => by
      rw [getElem?_alter_ite]
      split
      next hKey => rw [hKey]
      next => rfl) n.toList (pairwise_ne_entries n) m
  cases hk : n[k]? with
  | none =>
    refine hOut k ?_
    rintro e he rfl
    rw [mem_toList_iff.mp he] at hk
    cases hk
  | some w => exact hIn (k, w) (mem_toList_iff.mpr hk)

omit [DecidableEq K] [Std.LawfulEqOrd K] in
theorem values_eq_map_snd (m : ExtTreeMap K V compare) : m.values = m.toList.map Prod.snd := by
  obtain ⟨⟨q⟩⟩ := m
  induction q using Quotient.ind with
  | _ t =>
    change t.inner.values = (Std.DTreeMap.Internal.Impl.Const.toList t.inner).map Prod.snd
    rw [Std.DTreeMap.Internal.Impl.values_eq_map_snd,
      Std.DTreeMap.Internal.Impl.Const.toList_eq_toListModel_map, List.map_map]
    rfl

/-- A map rebuilt from its entries. -/
theorem foldl_insert_toList (m : ExtTreeMap K V compare) :
    m.toList.foldl (fun m e => m.insert e.1 e.2) (∅ : ExtTreeMap K V compare) = m := by
  apply ExtTreeMap.ext_getElem?
  intro k
  obtain ⟨hIn, hOut⟩ := @read_foldl (ExtTreeMap K V compare) (K × V) K V _ (fun m k => m[k]?)
    (fun m e => m.insert e.1 e.2) Prod.fst (fun e _ => some e.2)
    (fun m e k => getElem?_insert_ite m e.1 e.2 k) m.toList (pairwise_ne_entries m) ∅
  cases hk : m[k]? with
  | none =>
    rw [hOut k]
    · simp
    · rintro e he rfl
      rw [mem_toList_iff.mp he] at hk
      cases hk
  | some v => exact hIn (k, v) (mem_toList_iff.mpr hk)

end Reads

variable {K V : Type*} [LinearOrder K]

/-- `map.range(..=k).next_back()`. -/
def lastAtMost (m : ExtTreeMap K V compare) (k : K) : Option (K × V) :=
  (m.toList.filter fun entry => entry.1 ≤ k).getLast?

/-- `map.range(k..).next()`. -/
def firstAtLeast (m : ExtTreeMap K V compare) (k : K) : Option (K × V) :=
  m.toList.find? fun entry => k ≤ entry.1

theorem pairwise_keys_toList (m : ExtTreeMap K V compare) :
    m.toList.Pairwise fun a b => a.1 < b.1 := by
  refine ExtTreeMap.ordered_keys_toList.imp ?_
  intro a b h
  exact compare_lt_iff_lt.mp h

theorem lastAtMost_eq_some {m : ExtTreeMap K V compare} {k a : K} {v : V} :
    lastAtMost m k = some (a, v) ↔
      m[a]? = some v ∧ a ≤ k ∧ ∀ b w, m[b]? = some w → b ≤ k → b ≤ a := by
  have hSorted := (pairwise_keys_toList m).filter fun entry => decide (entry.1 ≤ k)
  have hMem : ∀ b w, (b, w) ∈ (m.toList.filter fun entry => decide (entry.1 ≤ k)) ↔
      m[b]? = some w ∧ b ≤ k := by
    intro b w
    simp [List.mem_filter]
  unfold lastAtMost
  constructor
  · intro h
    obtain ⟨before, hSplit⟩ := List.getLast?_eq_some_iff.mp h
    rw [hSplit] at hSorted hMem
    obtain ⟨hEntry, hLe⟩ := (hMem a v).mp (by simp)
    refine ⟨hEntry, hLe, ?_⟩
    intro b w hb hbk
    rcases List.mem_append.mp ((hMem b w).mpr ⟨hb, hbk⟩) with hBefore | hLast
    · exact ((List.pairwise_append.mp hSorted).2.2 _ hBefore (a, v) (by simp)).le
    · simp only [List.mem_singleton, Prod.mk.injEq] at hLast
      exact hLast.1.le
  · rintro ⟨hEntry, hLe, hMax⟩
    obtain ⟨before, after, hSplit⟩ := List.append_of_mem ((hMem a v).mpr ⟨hEntry, hLe⟩)
    rw [hSplit] at hSorted hMem ⊢
    cases after with
    | nil => simp
    | cons next after =>
      obtain ⟨hNext, hNextLe⟩ := (hMem next.1 next.2).mp (by simp)
      have hAbove : a < next.1 :=
        (List.pairwise_cons.mp (List.pairwise_append.mp hSorted).2.1).1 next (by simp)
      exact absurd (hMax _ _ hNext hNextLe) (not_le.mpr hAbove)

theorem firstAtLeast_eq_some {m : ExtTreeMap K V compare} {k a : K} {v : V}
    (h : firstAtLeast m k = some (a, v)) :
    m[a]? = some v ∧ k ≤ a ∧ ∀ b w, m[b]? = some w → k ≤ b → a ≤ b := by
  obtain ⟨hLe, before, after, hSplit, hBefore⟩ := List.find?_eq_some_iff_append.mp h
  have hSorted := pairwise_keys_toList m
  have hMem : ∀ b w, (b, w) ∈ m.toList ↔ m[b]? = some w := fun b w => mem_toList_iff
  rw [hSplit] at hSorted hMem
  refine ⟨(hMem a v).mp (by simp), by simpa using hLe, ?_⟩
  intro b w hb hkb
  rcases List.mem_append.mp ((hMem b w).mpr hb) with hIn | hIn
  · exact absurd hkb (by simpa using hBefore _ hIn)
  · rcases List.mem_cons.mp hIn with hEq | hAfter
    · exact (Prod.mk.inj hEq).1.ge
    · exact ((List.pairwise_cons.mp (List.pairwise_append.mp hSorted).2.1).1 _ hAfter).le

theorem firstAtLeast_eq_none {m : ExtTreeMap K V compare} {k : K} :
    firstAtLeast m k = none ↔ ∀ b w, m[b]? = some w → b < k := by
  unfold firstAtLeast
  simp only [List.find?_eq_none, decide_eq_true_eq, Prod.forall, mem_toList_iff, not_le]

end CrdtSync.Lib
