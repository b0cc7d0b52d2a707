import Mathlib.Data.List.Sublists
import Mathlib.Data.List.Nodup
import Mathlib.Data.List.TakeWhile

/-!
# Edges in a sequence

An edge lies beside an item of a sequence, or at one of its ends, and has what precedes it on its
left. What is left of an edge stays left of it as the sequence grows, so edges never trade places.
-/

namespace CrdtSync.Lib

/-- A side of an item, or an end of the sequence. -/
inductive Edge (α : Type*)
  | start
  | before (a : α)
  | after (a : α)
  | «end»

namespace Edge

variable {α : Type*} [DecidableEq α] {xs ys : List α} {e f : Edge α} {x : α}

def left (xs : List α) : Edge α → List α
  | .start => []
  | .before a => xs.takeWhile (· ≠ a)
  | .after a => xs.takeWhile (· ≠ a) ++ [a]
  | .end => xs

/-- The item the edge is beside is in the sequence. -/
def Bound (xs : List α) : Edge α → Prop
  | .before a | .after a => a ∈ xs
  | _ => True

/-- The items picked out by `live` left of the edge. -/
def rank (live : α → Bool) (xs : List α) (e : Edge α) : Nat := (e.left xs).countP live

/-- The items from one edge to the other. -/
def Between (xs : List α) (e f : Edge α) (x : α) : Prop := x ∉ e.left xs ∧ x ∈ f.left xs

omit [DecidableEq α] in
theorem Bound.mono (h : e.Bound xs) (hSub : xs ⊆ ys) : e.Bound ys := by
  cases e with
  | start => trivial
  | before a => exact hSub h
  | after a => exact hSub h
  | «end» => trivial

theorem split_of_mem {a : α} (h : a ∈ xs) :
    ∃ post, xs = xs.takeWhile (· ≠ a) ++ a :: post ∧ a ∉ xs.takeWhile (· ≠ a) := by
  induction xs with
  | nil => cases h
  | cons y xs ih =>
    by_cases hEq : y = a
    · subst hEq
      exact ⟨xs, by simp, by simp⟩
    · obtain ⟨post, hSplit, hOut⟩ := ih ((List.mem_cons.mp h).resolve_left (Ne.symm hEq))
      refine ⟨post, ?_, ?_⟩
      · rw [List.takeWhile_cons_of_pos (by simpa using hEq), List.cons_append, ← hSplit]
      · rw [List.takeWhile_cons_of_pos (by simpa using hEq), List.mem_cons, not_or]
        exact ⟨Ne.symm hEq, hOut⟩

theorem left_initial (h : e.Bound xs) : e.left xs <+: xs := by
  cases e with
  | start => exact List.nil_prefix
  | before a => exact List.takeWhile_prefix _
  | after a =>
    obtain ⟨post, hSplit, -⟩ := split_of_mem h
    exact ⟨post, by rw [left, List.append_assoc, List.singleton_append, ← hSplit]⟩
  | «end» => exact List.prefix_rfl

theorem left_total (he : e.Bound xs) (hf : f.Bound xs) :
    e.left xs <+: f.left xs ∨ f.left xs <+: e.left xs :=
  List.prefix_or_prefix_of_prefix (left_initial he) (left_initial hf)

/-- An item that is left of one edge only puts that edge last. -/
theorem left_of_witness (he : e.Bound xs) (hf : f.Bound xs) (hIn : x ∈ f.left xs)
    (hOut : x ∉ e.left xs) : e.left xs <+: f.left xs :=
  (left_total he hf).resolve_right fun h => hOut (h.subset hIn)

theorem rank_le {live : α → Bool} (h : e.left xs <+: f.left xs) :
    e.rank live xs ≤ f.rank live xs :=
  h.sublist.countP_le

theorem exists_of_rank_lt {live : α → Bool} (hNodup : xs.Nodup) (he : e.Bound xs)
    (hf : f.Bound xs) (h : e.rank live xs < f.rank live xs) : ∃ x ∈ xs, Between xs e f x := by
  rcases left_total he hf with ⟨rest, hRest⟩ | hGe
  · cases rest with
    | nil =>
      rw [List.append_nil] at hRest
      rw [rank, rank, hRest] at h
      exact absurd h (lt_irrefl _)
    | cons x rest =>
      have hLeft : (e.left xs ++ x :: rest).Nodup :=
        hRest ▸ (left_initial hf).sublist.nodup hNodup
      have hIn : x ∈ f.left xs := by simp [← hRest]
      refine ⟨x, (left_initial hf).subset hIn, fun hx => ?_, hIn⟩
      exact (List.nodup_append.mp hLeft).2.2 x hx x List.mem_cons_self rfl
  · exact absurd h (rank_le hGe).not_gt

/-- An item is left of another when the two stand in that order. -/
theorem mem_before {a : α} (hNodup : xs.Nodup) (ha : a ∈ xs) :
    x ∈ (before a).left xs ↔ [x, a].Sublist xs := by
  obtain ⟨post, hSplit, -⟩ := split_of_mem ha
  rw [left]
  generalize xs.takeWhile (· ≠ a) = pre at hSplit
  subst hSplit
  constructor
  · intro hIn
    exact (List.singleton_sublist.mpr hIn).append (List.singleton_sublist.mpr List.mem_cons_self)
  · intro hPair
    obtain ⟨_ | ⟨y, first⟩, last, hEq, hFirst, hLast⟩ := List.sublist_append_iff.mp hPair
    · obtain rfl : [x, a] = last := hEq
      have hPost := (List.nodup_cons.mp (List.nodup_append.mp hNodup).2.1).1
      exact absurd ((List.sublist_cons_iff.mp hLast).elim (fun h => h.subset (by simp))
        fun ⟨_, hTail, h⟩ => h.subset (by simp [(List.cons.inj hTail).2.symm])) hPost
    · obtain rfl := (List.cons.inj hEq).1
      exact hFirst.subset List.mem_cons_self

/-- Two items do not stand in both orders. -/
theorem not_pair {a : α} (hNodup : xs.Nodup) (hPair : [x, a].Sublist xs) :
    ¬[a, x].Sublist xs := by
  intro hBack
  have hNe : x ≠ a := by
    rintro rfl
    exact (List.nodup_cons.mp (hPair.nodup hNodup)).1 List.mem_cons_self
  have ha : a ∈ xs := hPair.subset (by simp)
  have hx : x ∈ xs := hPair.subset (by simp)
  have hLeft := (mem_before hNodup ha).mpr hPair
  have hRight := (mem_before hNodup hx).mpr hBack
  rcases left_total (e := before a) (f := before x) ha hx with hLe | hLe
  · simpa using List.mem_takeWhile_imp (hLe.subset hLeft)
  · simpa using List.mem_takeWhile_imp (hLe.subset hRight)

/-- Growth leaves what is held on its side of every edge. -/
theorem mem_left_of_sublist (hSub : ys.Sublist xs) (hNodup : xs.Nodup) (he : e.Bound ys)
    (hx : x ∈ ys) : x ∈ e.left ys ↔ x ∈ e.left xs := by
  have hBefore {a : α} (ha : a ∈ ys) : x ∈ (before a).left ys ↔ x ∈ (before a).left xs := by
    rw [mem_before (hSub.nodup hNodup) ha, mem_before hNodup (hSub.subset ha)]
    refine ⟨fun h => h.trans hSub, fun h => ?_⟩
    -- what comes after `a` in the shorter sequence comes after it in the longer one
    obtain ⟨post, hSplit, -⟩ := split_of_mem ha
    rw [hSplit, List.mem_append, List.mem_cons] at hx
    rcases hx with hPre | rfl | hPost
    · rw [← mem_before (hSub.nodup hNodup) ha]
      exact hPre
    · exact absurd h (not_pair hNodup h)
    · have hPair : [a, x].Sublist ys := by
        rw [hSplit]
        exact (((List.singleton_sublist.mpr hPost).cons_cons a)).trans (List.sublist_append_right ..)
      exact absurd (hPair.trans hSub) (not_pair hNodup h)
  cases e with
  | start => exact Iff.rfl
  | before a => exact hBefore he
  | after a =>
    simp only [left, List.mem_append, List.mem_singleton]
    exact or_congr_left (hBefore he)
  | «end» => exact iff_of_true hx (hSub.subset hx)

/-- Two edges of a sequence keep their order as it grows, whatever is live then. -/
theorem rank_le_of_sublist {live live' : α → Bool} (hSub : ys.Sublist xs) (hNodup : xs.Nodup)
    (he : e.Bound ys) (hf : f.Bound ys) (h : e.rank live ys < f.rank live ys) :
    e.rank live' xs ≤ f.rank live' xs := by
  obtain ⟨x, hx, hOut, hIn⟩ := exists_of_rank_lt (hSub.nodup hNodup) he hf h
  rw [mem_left_of_sublist hSub hNodup he hx] at hOut
  rw [mem_left_of_sublist hSub hNodup hf hx] at hIn
  exact rank_le (left_of_witness (he.mono hSub.subset) (hf.mono hSub.subset) hIn hOut)

theorem rank_before_lt_iff {live : α → Bool} (hx : x ∈ xs) (hLive : live x = true)
    (hf : f.Bound xs) : (before x).rank live xs < f.rank live xs ↔ x ∈ f.left xs := by
  have hOut : x ∉ (before x).left xs := fun h => by simpa using List.mem_takeWhile_imp h
  constructor
  · intro h
    by_contra hIn
    refine (rank_le ?_).not_gt h
    have hEdge : ¬(before x).left xs ++ [x] <+: f.left xs := fun h => hIn (h.subset (by simp))
    have hTotal := left_total (e := f) (f := after x) hf hx
    exact (List.prefix_concat_iff.mp (hTotal.resolve_right hEdge)).resolve_left
      fun h => hIn (h ▸ by simp)
  · intro hIn
    obtain ⟨rest, hRest⟩ := left_of_witness (e := before x) hx hf hIn hOut
    rw [← hRest, List.mem_append] at hIn
    rw [rank, rank, ← hRest, List.countP_append]
    exact Nat.lt_add_of_pos_right (List.countP_pos_iff.mpr ⟨x, hIn.resolve_left hOut, hLive⟩)

end Edge

end CrdtSync.Lib
