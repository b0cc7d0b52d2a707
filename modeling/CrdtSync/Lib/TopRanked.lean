import Mathlib.Data.Finset.Sort

/-!
# The first of a ranking

The `n` best of a finite set under a total order. One element more or one less changes the
best by that element and by one at the end, and leaves the others in their order.
-/

namespace CrdtSync.Lib

section Lists

variable {α : Type*} [BEq α] [LawfulBEq α]

/-- What a prefix becomes when an element is taken out of the list. -/
theorem take_erase {l : List α} (hl : l.Nodup) (m : α) (n : Nat) :
    (l.erase m).take n =
      if m ∈ l.take n then (l.take n).erase m ++ l[n]?.toList else l.take n := by
  induction l generalizing n with
  | nil => simp
  | cons x l ih =>
    obtain ⟨hx, hl⟩ := List.nodup_cons.mp hl
    obtain rfl | hNe := eq_or_ne x m
    · cases n with
      | zero => simp
      | succ n => rw [List.take_succ_cons, if_pos List.mem_cons_self, List.erase_cons_head,
          List.erase_cons_head, List.getElem?_cons_succ, List.take_add_one]
    · rw [List.erase_cons_tail (by simpa using hNe)]
      cases n with
      | zero => simp
      | succ n =>
        rw [List.take_succ_cons, List.take_succ_cons, ih hl n, List.getElem?_cons_succ]
        have hMem : m ∈ x :: l.take n ↔ m ∈ l.take n := by simp [Ne.symm hNe]
        by_cases hIn : m ∈ l.take n
        · rw [if_pos hIn, if_pos (hMem.mpr hIn), List.erase_cons_tail (by simpa using hNe),
            List.cons_append]
        · rw [if_neg hIn, if_neg (hMem.not.mpr hIn)]

omit [BEq α] [LawfulBEq α] in
/-- What a prefix becomes when an element is put into the list inside it. -/
theorem take_insertIdx (l : List α) (m : α) {i n : Nat} (hi : i < n) :
    ((l.take n).insertIdx i m).take n = (l.insertIdx i m).take n := by
  induction l generalizing i n with
  | nil => simp
  | cons x l ih =>
    obtain _ | n := n
    · omega
    cases i with
    | zero =>
      rw [List.insertIdx_zero, List.insertIdx_zero, List.take_succ_cons, List.take_take,
        min_eq_left (Nat.le_succ n), List.take_succ_cons]
    | succ i =>
      simp only [List.take_succ_cons, List.insertIdx_succ_cons, List.cons.injEq, true_and]
      exact ih (by omega)

theorem insertIdx_idxOf_erase {l : List α} {m : α} (hm : m ∈ l) :
    (l.erase m).insertIdx (l.idxOf m) m = l := by
  induction l with
  | nil => cases hm
  | cons x l ih =>
    obtain rfl | hNe := eq_or_ne x m
    · simp
    · have hIn : m ∈ l := (List.mem_cons.mp hm).resolve_left (Ne.symm hNe)
      rw [List.erase_cons_tail (by simpa using hNe), List.idxOf_cons_ne _ hNe,
        List.insertIdx_succ_cons, ih hIn]

end Lists

section Ranked

variable {α : Type*} (r : α → α → Prop) [DecidableRel r] [IsTrans α r] [Std.Antisymm r] [Std.Total r]

/-- The `n` best of a set, the best first. -/
def top (s : Finset α) (n : Nat) : List α := (s.sort r).take n

theorem top_nodup (s : Finset α) (n : Nat) : (top r s n).Nodup :=
  (s.sort_nodup r).sublist (List.take_sublist n _)

theorem length_top (s : Finset α) (n : Nat) : (top r s n).length = min n s.card := by
  rw [top, List.length_take, Finset.length_sort]

theorem mem_of_mem_top {s : Finset α} {n : Nat} {x : α} (h : x ∈ top r s n) : x ∈ s :=
  (Finset.mem_sort r).mp (List.mem_of_mem_take h)

variable [DecidableEq α] [BEq α] [LawfulBEq α]

theorem sort_erase (s : Finset α) (m : α) : (s.erase m).sort r = (s.sort r).erase m := by
  have hSorted : ((s.sort r).erase m).Pairwise r := (s.pairwise_sort r).sublist List.erase_sublist
  have hNodup : ((s.sort r).erase m).Nodup := (s.sort_nodup r).erase m
  have hSet : ((s.sort r).erase m).toFinset = s.erase m := by
    ext x
    simp [(s.sort_nodup r).mem_erase_iff]
  rw [← hSet]
  exact (List.toFinset_sort r hNodup).mpr hSorted

/-- One element fewer: it leaves the best, and the next one in the ranking joins at the end. -/
theorem top_erase (s : Finset α) (m : α) (n : Nat) :
    top r (s.erase m) n =
      if m ∈ top r s n then (top r s n).erase m ++ (s.sort r)[n]?.toList else top r s n := by
  rw [top, sort_erase]
  exact take_erase (s.sort_nodup r) m n

/-- One element more: it takes its place among the best, or they stand. -/
theorem top_insert {s : Finset α} {m : α} (hNew : m ∉ s) (n : Nat) :
    m ∉ top r (insert m s) n ∧ top r (insert m s) n = top r s n ∨
      ∃ i < n, i ≤ (top r s n).length ∧
        top r (insert m s) n = ((top r s n).insertIdx i m).take n := by
  have hErase : ((insert m s).sort r).erase m = s.sort r := by
    rw [← sort_erase, Finset.erase_insert hNew]
  have hIn : m ∈ (insert m s).sort r := (Finset.mem_sort r).mpr (Finset.mem_insert_self m s)
  by_cases hTop : m ∈ top r (insert m s) n
  · have hPlace : ((insert m s).sort r).idxOf m < n := (List.mem_take_iff_idxOf_lt hIn).mp hTop
    refine .inr ⟨((insert m s).sort r).idxOf m, hPlace, ?_, ?_⟩
    · have hHeld := List.idxOf_lt_length_of_mem hIn
      rw [Finset.length_sort, Finset.card_insert_of_notMem hNew] at hHeld
      rw [length_top]
      omega
    · change _ = (((s.sort r).take n).insertIdx _ m).take n
      rw [take_insertIdx _ m hPlace, ← hErase, insertIdx_idxOf_erase hIn]
      rfl
  · refine .inl ⟨hTop, ?_⟩
    have hSame := top_erase r (insert m s) m n
    rw [Finset.erase_insert hNew, if_neg hTop] at hSame
    exact hSame.symm

end Ranked

end CrdtSync.Lib
