import CrdtSync.Lib.ForestWalk

/-!
# Forests that grow

A forest that only gains nodes keeps the order of the walk it had. A leaf appears in
the walk beside the node it hangs on, and whatever hangs on one child of a node is
walked before or after whatever hangs on another.
-/

namespace CrdtSync.Lib

namespace Forest

variable {α : Type*} {F G : Forest α}

/-- Every node of `F` has in `G` the children it had, in the same order, and maybe more. -/
structure Grows (F G : Forest α) : Prop where
  left : ∀ p, (F.left p).Sublist (G.left p)
  right : ∀ p, (F.right p).Sublist (G.right p)

theorem Grows.children (h : Grows F G) (p : Option α) :
    (F.children p).Sublist (G.children p) :=
  (h.left p).append (h.right p)

theorem Walks.sublist (hGrows : Grows F G) {xs ys out out' : List α} (h' : G.Walks ys out')
    (h : F.Walks xs out) (hSub : xs.Sublist ys) : out.Sublist out' := by
  induction h' generalizing xs out with
  | nil =>
    obtain rfl := List.sublist_nil.mp hSub
    cases h
    exact .refl []
  | @cons a siblings ls rs rest _ _ _ ihLeft ihRight ihRest =>
    cases hSub with
    | cons _ hSub =>
      have hRest := ihRest h hSub
      exact hRest.trans ((List.sublist_append_right rs rest).trans
        ((List.sublist_cons_self a _).trans (List.sublist_append_right ls _)))
    | cons_cons _ hSub =>
      cases h with
      | cons hLeft hRight hRest =>
        exact (ihLeft hLeft (hGrows.left _)).append
          (((ihRight hRight (hGrows.right _)).append (ihRest hRest hSub)).cons_cons a)

/-- `G` is `F` with leaves added: `before a` last to the left of `a`, and `after a` to the right of
an `a` that had nothing there. -/
structure AddsLeaves (F G : Forest α) (before after : α → List α) : Prop where
  left : ∀ a, G.left (some a) = F.left (some a) ++ before a
  right : ∀ a, G.right (some a) = F.right (some a) ++ after a
  bare : ∀ a, after a ≠ [] → F.right (some a) = []
  leaf_before : ∀ a, G.Walks (before a) (before a)
  leaf_after : ∀ a, G.Walks (after a) (after a)

theorem Walks.addsLeaves {before after : α → List α} (hAdds : AddsLeaves F G before after)
    {xs out : List α} (h : F.Walks xs out) :
    G.Walks xs (out.flatMap fun a => before a ++ a :: after a) := by
  induction h with
  | nil => exact .nil
  | @cons a siblings ls rs out _ hRight _ ihLeft ihRight ihRest =>
    have hLeft' := ihLeft.append (hAdds.leaf_before a)
    rw [← hAdds.left a] at hLeft'
    have hRight' : G.Walks (G.right (some a))
        (after a ++ rs.flatMap fun b => before b ++ b :: after b) := by
      rw [hAdds.right a]
      cases hAfter : after a with
      | nil =>
        rw [List.append_nil]
        exact ihRight
      | cons b bs =>
        -- nothing hung to the right of the node before
        have hBare := hAdds.bare a (by rw [hAfter]; exact List.cons_ne_nil b bs)
        rw [hBare] at hRight ⊢
        cases hRight
        rw [List.flatMap_nil, List.append_nil, List.nil_append, ← hAfter]
        exact hAdds.leaf_after a
    have hWalk := Walks.cons hLeft' hRight' ihRest
    simpa only [List.flatMap_append, List.flatMap_cons, List.append_assoc, List.cons_append]
      using hWalk

theorem Walks.mem_of_below {xs out : List α} (h : F.Walks xs out) {a b : α} (ha : a ∈ xs)
    (hBelow : F.Below a b) : b ∈ out := by
  induction h generalizing a with
  | nil => cases ha
  | @cons c siblings ls rs out _ _ _ ihLeft ihRight ihRest =>
    simp only [List.mem_append, List.mem_cons]
    rcases List.mem_cons.mp ha with rfl | ha
    · cases hBelow using Relation.ReflTransGen.head_induction_on with
      | refl => exact .inr (.inl rfl)
      | head hChild hTail =>
        rcases List.mem_append.mp hChild with hChild | hChild
        · exact .inl (ihLeft hChild hTail)
        · exact .inr (.inr (.inl (ihRight hChild hTail)))
    · exact .inr (.inr (.inr (ihRest ha hBelow)))

theorem Walks.right_later {xs out : List α} (h : F.Walks xs out) {p c : α} (hp : p ∈ out)
    (hc : c ∈ F.right (some p)) : [p, c].Sublist out := by
  induction h with
  | nil => cases hp
  | @cons e siblings ls rs out _ hRight _ ihLeft ihRight ihRest =>
    simp only [List.mem_append, List.mem_cons] at hp
    rcases hp with hp | rfl | hp | hp
    · exact (ihLeft hp).trans (List.sublist_append_left _ _)
    · have hIn := List.mem_append_left out (hRight.mem_of_below hc .refl)
      exact ((List.singleton_sublist.mpr hIn).cons_cons p).trans (List.sublist_append_right _ _)
    · exact (ihRight hp).trans ((List.sublist_append_left _ _).trans
        ((List.sublist_cons_self _ _).trans (List.sublist_append_right _ _)))
    · exact (ihRest hp).trans ((List.sublist_append_right _ _).trans
        ((List.sublist_cons_self _ _).trans (List.sublist_append_right _ _)))

theorem Walks.right_of_last {xs out : List α} {l : α} (h : F.Walks xs (out ++ [l]))
    (hNodup : (out ++ [l]).Nodup) : F.right (some l) = [] := by
  refine List.eq_nil_iff_forall_not_mem.mpr fun c hc => ?_
  have hPair : [l, c].Sublist (out ++ [l]) := h.right_later (by simp) hc
  have hOut : l ∉ out := fun hIn => (List.nodup_append.mp hNodup).2.2 l hIn l (by simp) rfl
  obtain ⟨before, after, hSplit, hBefore, hAfter⟩ := List.sublist_append_iff.mp hPair
  cases before with
  | nil =>
    rw [List.nil_append] at hSplit
    have hLength := hAfter.length_le
    rw [← hSplit] at hLength
    simp at hLength
  | cons y before =>
    obtain ⟨rfl, -⟩ := List.cons_eq_cons.mp hSplit
    exact hOut (hBefore.subset List.mem_cons_self)

theorem Walks.left_before {xs out : List α} (h : F.Walks xs out) {r : α} (hr : r ∈ out) :
    ∃ u ls v, out = u ++ (ls ++ r :: v) ∧ F.Walks (F.left (some r)) ls := by
  induction h with
  | nil => cases hr
  | @cons a siblings ls rs out hLeft _ _ ihLeft ihRight ihRest =>
    simp only [List.mem_append, List.mem_cons] at hr
    rcases hr with hr | rfl | hr | hr
    · obtain ⟨u, ls', v, rfl, hWalk⟩ := ihLeft hr
      exact ⟨u, ls', v ++ a :: (rs ++ out), by simp, hWalk⟩
    · exact ⟨[], ls, rs ++ out, rfl, hLeft⟩
    · obtain ⟨u, ls', v, rfl, hWalk⟩ := ihRight hr
      exact ⟨ls ++ a :: u, ls', v ++ out, by simp, hWalk⟩
    · obtain ⟨u, ls', v, rfl, hWalk⟩ := ihRest hr
      exact ⟨ls ++ a :: (rs ++ u), ls', v, by simp, hWalk⟩

/-- Siblings one after the other, at the top of a walk or on one side of a node in it. -/
def Siblings (F : Forest α) (xs out : List α) (a b : α) : Prop :=
  [a, b].Sublist xs ∨ ∃ p ∈ out, [a, b].Sublist (F.left (some p)) ∨
    [a, b].Sublist (F.right (some p))

theorem Walks.siblings {xs out : List α} (h : F.Walks xs out) {a b c d : α}
    (hSiblings : F.Siblings xs out a b) (hc : F.Below a c) (hd : F.Below b d) :
    [c, d].Sublist out := by
  induction h with
  | nil =>
    rcases hSiblings with hTop | ⟨p, hp, -⟩
    · cases hTop
    · cases hp
  | @cons e siblings ls rs out hLeft hRight hRest ihLeft ihRight ihRest =>
    have hInLeft : F.Siblings (F.left (some e)) ls a b →
        [c, d].Sublist (ls ++ e :: (rs ++ out)) := fun hIn =>
      (ihLeft hIn).trans (List.sublist_append_left _ _)
    have hInRight : F.Siblings (F.right (some e)) rs a b →
        [c, d].Sublist (ls ++ e :: (rs ++ out)) := fun hIn =>
      (ihRight hIn).trans ((List.sublist_append_left _ _).trans
        ((List.sublist_cons_self _ _).trans (List.sublist_append_right _ _)))
    have hInRest : F.Siblings siblings out a b → [c, d].Sublist (ls ++ e :: (rs ++ out)) := fun hIn =>
      (ihRest hIn).trans ((List.sublist_append_right _ _).trans
        ((List.sublist_cons_self _ _).trans (List.sublist_append_right _ _)))
    rcases hSiblings with hTop | ⟨p, hp, hSides⟩
    · cases hTop with
      | cons _ hTop => exact hInRest (.inl hTop)
      | cons_cons _ hTop =>
        -- the walk of `e` ends before the walk of its siblings starts
        have hOwn := (Walks.cons hLeft hRight .nil).mem_of_below List.mem_cons_self hc
        have hLater := hRest.mem_of_below (List.singleton_sublist.mp hTop) hd
        rw [List.append_nil] at hOwn
        have hPair := (List.singleton_sublist.mpr hOwn).append (List.singleton_sublist.mpr hLater)
        simpa only [List.append_assoc, List.cons_append, List.nil_append] using hPair
    · simp only [List.mem_append, List.mem_cons] at hp
      rcases hp with hp | rfl | hp | hp
      · exact hInLeft (.inr ⟨p, hp, hSides⟩)
      · rcases hSides with hSide | hSide
        · exact hInLeft (.inl hSide)
        · exact hInRight (.inl hSide)
      · exact hInRight (.inr ⟨p, hp, hSides⟩)
      · exact hInRest (.inr ⟨p, hp, hSides⟩)

end Forest

end CrdtSync.Lib
