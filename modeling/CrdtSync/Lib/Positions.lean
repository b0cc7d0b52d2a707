import Mathlib.Data.List.Basic
import Mathlib.Order.Bounds.Basic

/-!
# Numbered logs

A log above a base is its records, each with the position it stands at. Here is what lies
above a position or between two of them, and the last record that a test admits.
-/

namespace CrdtSync.Lib

variable {α : Type}

/-- The records of a log above `base`, the first of them at `base + 1`. -/
def numbered (base : Nat) (recs : List α) : List (α × Nat) := recs.zipIdx (base + 1)

/-- The records above a position. -/
def above (s : Nat) (l : List (α × Nat)) : List α :=
  (l.filter fun entry => s < entry.2).map Prod.fst

/-- The records above one position and not above another. -/
def between (s t : Nat) (l : List (α × Nat)) : List α :=
  (l.filter fun entry => s < entry.2 ∧ entry.2 ≤ t).map Prod.fst

def Ascending (l : List (α × Nat)) : Prop := l.Pairwise fun a b => a.2 < b.2

section Windows

variable {base s t : Nat}

theorem numbered_cons (base : Nat) (a : α) (recs : List α) :
    numbered base (a :: recs) = (a, base + 1) :: numbered (base + 1) recs := by
  simp [numbered, List.zipIdx_cons]

theorem mem_numbered_bounds {recs : List α} {entry : α × Nat} (h : entry ∈ numbered base recs) :
    base < entry.2 ∧ entry.2 ≤ base + recs.length := by
  obtain ⟨hLow, hHigh, -⟩ := List.mem_zipIdx h
  omega

theorem numbered_ascending (base : Nat) (recs : List α) : Ascending (numbered base recs) := by
  induction recs generalizing base with
  | nil => exact List.Pairwise.nil
  | cons a recs ih =>
    rw [numbered_cons]
    exact List.Pairwise.cons (fun entry hEntry => (mem_numbered_bounds hEntry).1) (ih _)

/-- Records told apart by a key stand at one position for each key. -/
theorem numbered_inj {β : Type} {key : α → β} {recs : List α} (h : (recs.map key).Nodup) {a b : α}
    {p q : Nat} (ha : (a, p) ∈ numbered base recs) (hb : (b, q) ∈ numbered base recs)
    (hKey : key a = key b) : p = q := by
  induction recs generalizing base with
  | nil => cases ha
  | cons c recs ih =>
    rw [List.map_cons, List.nodup_cons] at h
    have hAlone {d : α} {r : Nat} (hd : (d, r) ∈ numbered (base + 1) recs) : key d ≠ key c := by
      intro hSame
      obtain ⟨-, -, hMem⟩ := List.mem_zipIdx hd
      exact h.1 (hSame ▸ List.mem_map_of_mem (hMem ▸ List.getElem_mem _))
    rw [numbered_cons] at ha hb
    obtain hFirst | hRest := List.mem_cons.mp ha
    · obtain ⟨rfl, rfl⟩ := Prod.mk.inj hFirst
      obtain hSecond | hRest' := List.mem_cons.mp hb
      · exact (Prod.mk.inj hSecond).2.symm
      · exact absurd hKey.symm (hAlone hRest')
    · obtain hSecond | hRest' := List.mem_cons.mp hb
      · obtain ⟨rfl, rfl⟩ := Prod.mk.inj hSecond
        exact absurd hKey (hAlone hRest)
      · exact ih h.2 hRest hRest'

theorem Ascending.filter {l : List (α × Nat)} (h : Ascending l) (p : α × Nat → Bool) :
    Ascending (l.filter p) := List.Pairwise.filter p h

/-- Two ranges of positions, one below the other. -/
theorem Ascending.append {l l' : List (α × Nat)} (middle : Nat) (h : Ascending l)
    (h' : Ascending l') (hLow : ∀ entry ∈ l, entry.2 ≤ middle)
    (hHigh : ∀ entry ∈ l', middle < entry.2) : Ascending (l ++ l') :=
  List.pairwise_append.mpr ⟨h, h', fun a ha b hb => (hLow a ha).trans_lt (hHigh b hb)⟩

theorem above_append (s : Nat) (l l' : List (α × Nat)) :
    above s (l ++ l') = above s l ++ above s l' := by
  simp [above]

theorem above_numbered (base s : Nat) (recs : List α) :
    above s (numbered base recs) = recs.drop (s - base) := by
  induction recs generalizing base with
  | nil => simp [above, numbered]
  | cons a recs ih =>
    rw [numbered_cons, above, List.filter_cons]
    by_cases hAbove : s < base + 1
    · have hTail := ih (base + 1)
      rw [show s - (base + 1) = 0 by omega, List.drop_zero] at hTail
      rw [if_pos (by simpa using hAbove), List.map_cons, show s - base = 0 by omega, List.drop_zero]
      exact congrArg (a :: ·) hTail
    · rw [if_neg (by simpa using hAbove), show s - base = s - (base + 1) + 1 by omega,
        List.drop_succ_cons]
      exact ih (base + 1)

/-- The part of a log not above a position. -/
theorem numbered_filter_le (base t : Nat) (recs : List α) :
    (numbered base recs).filter (fun entry => entry.2 ≤ t) = numbered base (recs.take (t - base)) := by
  induction recs generalizing base with
  | nil => simp [numbered]
  | cons a recs ih =>
    rw [numbered_cons, List.filter_cons]
    by_cases hLow : base + 1 ≤ t
    · rw [if_pos (by simpa using hLow), ih, show t - base = t - (base + 1) + 1 by omega,
        List.take_succ_cons, numbered_cons]
    · rw [if_neg (by simpa using hLow), ih, show t - (base + 1) = 0 by omega,
        show t - base = 0 by omega]
      simp [numbered]

theorem Ascending.above_eq {l : List (α × Nat)} (h : Ascending l) (hst : s ≤ t) :
    above s l = between s t l ++ above t l := by
  induction l with
  | nil => rfl
  | cons entry l ih =>
    obtain ⟨hFirst, hRest⟩ := List.pairwise_cons.mp h
    have hTail := ih hRest
    unfold above between at hTail ⊢
    obtain hLow | hMiddle | hHigh : entry.2 ≤ s ∨ (s < entry.2 ∧ entry.2 ≤ t) ∨ t < entry.2 := by
      omega
    · have hHigh : ¬t < entry.2 := by omega
      have hLow' : ¬s < entry.2 := by omega
      simpa [List.filter_cons, hLow', hHigh] using hTail
    · have hHigh : ¬t < entry.2 := by omega
      simpa [List.filter_cons, hMiddle, hHigh] using hTail
    · -- everything that follows lies above both positions
      have hNone : l.filter (fun entry => s < entry.2 ∧ entry.2 ≤ t) = [] := by
        rw [List.filter_eq_nil_iff]
        intro other hOther
        have hAfter := hFirst other hOther
        simp only [decide_eq_true_eq, not_and, not_le]
        omega
      have hOutside : ¬(s < entry.2 ∧ entry.2 ≤ t) := by omega
      rw [hNone, List.map_nil, List.nil_append] at hTail
      rw [List.filter_cons_of_pos (by simpa using hst.trans_lt hHigh),
        List.filter_cons_of_neg (by simpa using hOutside), hNone,
        List.filter_cons_of_pos (by simpa using hHigh), List.map_nil, List.nil_append,
        List.map_cons, List.map_cons, hTail]

end Windows

section Latest

variable (admits : α → Bool)

/-- The first position down a log, above a known one, whose record is admitted. -/
def latest (head : Nat) : List (α × Nat) → Nat
  | [] => head
  | (rec, seq) :: rest => if seq ≤ head then head else if admits rec then seq else latest head rest

theorem isGreatest_latest (head : Nat) {l : List (α × Nat)}
    (hDown : l.Pairwise fun a b => b.2 < a.2) :
    IsGreatest {p | p = head ∨ ∃ rec, (rec, p) ∈ l ∧ admits rec = true} (latest admits head l) := by
  induction l with
  | nil =>
    refine ⟨.inl rfl, ?_⟩
    rintro p (rfl | ⟨rec, hp, -⟩)
    · exact le_rfl
    · exact absurd hp List.not_mem_nil
  | cons entry l ih =>
    obtain ⟨rec, seq⟩ := entry
    obtain ⟨hFirst, hRest⟩ := List.pairwise_cons.mp hDown
    have hBelow : ∀ rec' p, (rec', p) ∈ (rec, seq) :: l → p ≤ seq := by
      intro rec' p hp
      obtain hEq | hTail := List.mem_cons.mp hp
      · exact (Prod.ext_iff.mp hEq).2.le
      · exact (hFirst (rec', p) hTail).le
    rw [latest]
    split
    · next hPast =>
      refine ⟨.inl rfl, ?_⟩
      rintro p (rfl | ⟨rec', hp, -⟩)
      · exact le_rfl
      · exact (hBelow rec' p hp).trans hPast
    · next hAhead =>
      split
      · next hAdmits =>
        refine ⟨.inr ⟨rec, List.mem_cons_self, hAdmits⟩, ?_⟩
        rintro p (rfl | ⟨rec', hp, -⟩)
        · exact (not_le.mp hAhead).le
        · exact hBelow rec' p hp
      · next hRefused =>
        obtain ⟨hMem, hUpper⟩ := ih hRest
        refine ⟨?_, ?_⟩
        · obtain hHead | ⟨rec', hp, hAdmits⟩ := hMem
          · exact .inl hHead
          · exact .inr ⟨rec', List.mem_cons_of_mem _ hp, hAdmits⟩
        · rintro p (rfl | ⟨rec', hp, hAdmits⟩)
          · exact hUpper (.inl rfl)
          · obtain hEq | hTail := List.mem_cons.mp hp
            · obtain ⟨rfl, rfl⟩ := Prod.ext_iff.mp hEq
              exact absurd hAdmits hRefused
            · exact hUpper (.inr ⟨rec', hTail, hAdmits⟩)

end Latest

end CrdtSync.Lib
