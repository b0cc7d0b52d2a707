import CrdtSync.Core.ListCodec

/-!
# Merging as a join

What a list holds of an id is a claim, ranked by its kind, its anchor and its bytes, or
the anchor of a tombstone. A merge takes the lesser of two claims, and a tombstone over
a claim; but it keeps the anchor of the list that receives, where an op that meets a
tombstone takes the lesser. So a merge is a join except where a deleted id is anchored
in two ways.
-/

namespace CrdtSync

open Lib SeqValue

def Rank.anchor (r : Rank) : Anchor := (ofLex (ofLex r).2).1

namespace Seated

/-- Fold what a peer holds of an id in. -/
def merge (other held : Seated) : Seated :=
  match held, other with
  | held, .vacant => held
  | .vacant, other => other
  | .dead taken, _ => .dead taken
  | .live r, .dead _ => .dead r.anchor
  | .live r, .live claim => .live (min r claim)

/-- A claim takes an id from a greater one; against a tombstone only the anchors are ranked. -/
def claim (r : Rank) : Seated → Seated
  | .vacant => .live r
  | .live held => .live (min held r)
  | .dead taken => .dead (min taken r.anchor)

def delete : Seated → Seated
  | .live r => .dead r.anchor
  | held => held

/-- What a cell holds, as far as a claim can rank it. -/
def ofCell {V : Type} [SeqValue V] : Option (Cell V) → Seated
  | none => .vacant
  | some ⟨anchor, some item⟩ => .live (FugueList.claimRank item.value anchor)
  | some ⟨anchor, none⟩ => .dead anchor

def anchorOf : Seated → Option Anchor
  | .vacant => none
  | .live r => some r.anchor
  | .dead taken => some taken

/-- A merge over a tombstone is a tombstone, where the list that receives has the id. -/
theorem merge_of_dead {a b : Seated} (h : (∃ t, a = .dead t) ∨ ∃ t, b = .dead t) :
    ∃ t, a.anchorOf.or b.anchorOf = some t ∧ b.merge a = .dead t := by
  rcases h with ⟨t, rfl⟩ | ⟨t, rfl⟩
  · exact ⟨t, rfl, by cases b <;> rfl⟩
  · cases a with
    | vacant => exact ⟨t, rfl, rfl⟩
    | live r => exact ⟨r.anchor, rfl, rfl⟩
    | dead taken => exact ⟨taken, rfl, rfl⟩

section Laws

/-- Neither list has deleted an id that the other anchors elsewhere. -/
def Agrees : Seated → Seated → Prop
  | .dead taken, .live r => taken = r.anchor
  | .live r, .dead taken => r.anchor = taken
  | .dead taken, .dead other => taken = other
  | _, _ => True

theorem merge_comm_iff (a b : Seated) : b.merge a = a.merge b ↔ Agrees a b := by
  cases a with
  | vacant => cases b <;> simp [merge, Agrees]
  | live r =>
    cases b with
    | vacant => simp [merge, Agrees]
    | live claim => simp [merge, Agrees, min_comm]
    | dead taken => simp [merge, Agrees]
  | dead taken =>
    cases b with
    | vacant => simp [merge, Agrees]
    | live claim => simp [merge, Agrees]
    | dead other => simp [merge, Agrees]

/-- A live claim that a lesser one meets before a tombstone keeps its anchor. -/
def Associates : Seated → Seated → Seated → Prop
  | .live r, .live claim, .dead _ => claim < r → claim.anchor = r.anchor
  | _, _, _ => True

theorem merge_assoc_iff (a b c : Seated) :
    c.merge (b.merge a) = (c.merge b).merge a ↔ Associates a b c := by
  cases a with
  | vacant => cases b <;> cases c <;> simp [merge, Associates]
  | dead taken => cases b <;> cases c <;> simp [merge, Associates]
  | live r =>
    cases b with
    | vacant => cases c <;> simp [merge, Associates]
    | dead taken => cases c <;> simp [merge, Associates]
    | live claim =>
      cases c with
      | vacant => simp [merge, Associates]
      | live other => simp [merge, Associates, min_assoc]
      | dead taken =>
        simp only [merge, Associates, Seated.dead.injEq]
        rcases le_or_gt r claim with hLe | hLt
        · rw [min_eq_left hLe]
          exact ⟨fun _ hLt => absurd hLt (not_lt.mpr hLe), fun _ => rfl⟩
        · rw [min_eq_right hLt.le]
          exact ⟨fun hEq _ => hEq, fun h => h hLt⟩

end Laws

end Seated

namespace FugueList

variable {V : Type} [SeqValue V] {l l' l'' : FugueList V} {x : Stamp}

theorem seated_eq (l : FugueList V) (x : Stamp) : l.seated x = .ofCell (l.cellAt x) := by
  unfold seated cellAt
  cases l.nodes[seqKey x]? with
  | some n => rfl
  | none => cases Runs.deadAnchorOf l.dead x <;> rfl

theorem anchorOf_eq_seated (l : FugueList V) (x : Stamp) : l.anchorOf x = (l.seated x).anchorOf := by
  rw [anchorOf_eq, seated_eq]
  match l.cellAt x with
  | none => rfl
  | some ⟨_, some _⟩ => rfl
  | some ⟨_, none⟩ => rfl

theorem claimRank_le_iff {value : V} {a b : Anchor} : claimRank value a ≤ claimRank value b ↔ a ≤ b := by
  simp only [claimRank, Prod.Lex.toLex_le_toLex, lt_irrefl, le_refl, and_true, true_and, false_or]
  exact le_iff_lt_or_eq.symm

end FugueList

namespace FugueList

variable [IdBytes] {l l' l'' : FugueList Element} {x : Stamp}

section Merge

theorem ofCell_merge (other : Cell Element) (held : Option (Cell Element)) :
    Seated.ofCell (Cell.merge other held) = (Seated.ofCell (some other)).merge (.ofCell held) := by
  obtain ⟨anchor, claim⟩ := other
  match held, claim with
  | none, some _ => rfl
  | none, none => rfl
  | some ⟨taken, none⟩, some _ => rfl
  | some ⟨taken, none⟩, none => rfl
  | some ⟨taken, some item⟩, none => rfl
  | some ⟨taken, some item⟩, some claim =>
    change Seated.ofCell (if _ then _ else if _ then _ else _) =
      .live (min (claimRank item.value taken) (claimRank claim.value anchor))
    split
    next hSame =>
      -- Ranks that agree on the kind and the bytes differ by their anchors.
      have hRank : claimRank claim.value anchor = claimRank item.value anchor := by
        rw [claimRank, claimRank, hSame.1, hSame.2]
      have hValue : (if kind item.value = .scalar then item.value
          else SeqValue.merge item.value claim.value) = item.value := ite_self _
      rw [hValue, hRank]
      split
      next hLess =>
        rw [min_eq_right (claimRank_le_iff.mpr hLess.le)]
        rfl
      next hNotLess =>
        rw [min_eq_left (claimRank_le_iff.mpr (not_lt.mp hNotLess))]
        rfl
    next hDiffer =>
      split
      next hLess =>
        rw [min_eq_right hLess.le]
        rfl
      next hNotLess =>
        rw [min_eq_left (not_lt.mp hNotLess)]
        rfl

theorem seated_merge (h : l.WF) (h' : l'.WF) (x : Stamp) :
    (l.merge l').seated x = (l'.seated x).merge (l.seated x) := by
  obtain ⟨-, hCell⟩ := h.merge h'
  rw [seated_eq, seated_eq, seated_eq, hCell]
  cases hOther : l'.cellAt x with
  | none => cases Seated.ofCell (l.cellAt x) <;> rfl
  | some c => exact ofCell_merge c _

def Same (l l' : FugueList Element) : Prop := ∀ x, l.seated x = l'.seated x

theorem same_merge_self (h : l.WF) : Same (l.merge l) l := by
  intro x
  rw [seated_merge h h]
  cases l.seated x with
  | vacant => rfl
  | live r => exact congrArg Seated.live (min_self r)
  | dead taken => rfl

end Merge

section Folds

/-- What a sequence is folded from. -/
inductive SeqOp
  | claim (id : Stamp) (value : Element) (anchor : Anchor)
  | delete (id : Stamp)

def SeqOp.apply (l : FugueList Element) : SeqOp → FugueList Element
  | .claim id value anchor => l.insertAt id value anchor
  | .delete id => l.deleteId id

def folded (id : ElementId) (ops : List SeqOp) : FugueList Element := ops.foldl SeqOp.apply (new id)

/-- A delete waits for a claim of the id it names. -/
def Causal (ops : List SeqOp) : Prop :=
  ∀ before after x, ops = before ++ .delete x :: after → ∃ value anchor, .claim x value anchor ∈ before

def Claimed (ops : List SeqOp) (x : Stamp) (r : Rank) : Prop :=
  ∃ value anchor, .claim x value anchor ∈ ops ∧ claimRank value anchor = r

/-- What an op does to what a list holds of an id. -/
def SeqOp.seats (x : Stamp) : SeqOp → Seated → Seated
  | .claim id value anchor, held => if id = x then held.claim (claimRank value anchor) else held
  | .delete id, held => if id = x then held.delete else held

theorem ofCell_insert (value : Element) (anchor : Anchor) (held : Option (Cell Element)) :
    Seated.ofCell (Cell.insert value anchor held) =
      (Seated.ofCell held).claim (claimRank value anchor) := by
  match held with
  | none => rfl
  | some ⟨taken, some item⟩ =>
    change Seated.ofCell (if _ then _ else _) = .live (min _ _)
    split
    next hLess =>
      rw [min_eq_right hLess.le]
      rfl
    next hNotLess =>
      rw [min_eq_left (not_lt.mp hNotLess)]
      rfl
  | some ⟨taken, none⟩ =>
    change Seated.ofCell (if _ then _ else _) = .dead (min taken anchor)
    split
    next hLess =>
      rw [min_eq_right hLess.le]
      rfl
    next hNotLess =>
      rw [min_eq_left (not_lt.mp hNotLess)]
      rfl

theorem ofCell_delete (held : Option (Cell Element)) :
    Seated.ofCell (Cell.delete held) = (Seated.ofCell held).delete := by
  match held with
  | none => rfl
  | some ⟨_, some _⟩ => rfl
  | some ⟨_, none⟩ => rfl

theorem SeqOp.apply_spec (h : l.WF) (op : SeqOp) :
    (op.apply l).WF ∧ ∀ x, (op.apply l).seated x = op.seats x (l.seated x) := by
  cases op with
  | claim id value anchor =>
    have hUpdates := h.insertAt id value anchor
    refine ⟨hUpdates.wf, fun x => ?_⟩
    rw [seated_eq, seated_eq, SeqOp.apply, hUpdates.cell, SeqOp.seats]
    split
    next hx => rw [hx, if_pos rfl, ofCell_insert]
    next hx => rw [if_neg fun hEq => hx hEq.symm]
  | delete id =>
    have hUpdates := h.deleteId id
    refine ⟨hUpdates.wf, fun x => ?_⟩
    rw [seated_eq, seated_eq, SeqOp.apply, hUpdates.cell, SeqOp.seats]
    split
    next hx => rw [hx, if_pos rfl, ofCell_delete]
    next hx => rw [if_neg fun hEq => hx hEq.symm]

theorem foldl_spec (h : l.WF) (ops : List SeqOp) : (ops.foldl SeqOp.apply l).WF ∧
    ∀ x, (ops.foldl SeqOp.apply l).seated x = ops.foldl (fun held op => op.seats x held) (l.seated x) := by
  induction ops generalizing l with
  | nil => exact ⟨h, fun _ => rfl⟩
  | cons op ops ih =>
    obtain ⟨hWF, hSeated⟩ := op.apply_spec h
    obtain ⟨hRest, hFolded⟩ := ih hWF
    refine ⟨hRest, fun x => ?_⟩
    rw [List.foldl_cons, hFolded, hSeated]
    rfl

/-- What the fold of some ops holds of an id. -/
def heldOf (ops : List SeqOp) (x : Stamp) : Seated := ops.foldl (fun held op => op.seats x held) .vacant

theorem seated_folded (id : ElementId) (ops : List SeqOp) (x : Stamp) :
    (folded id ops).seated x = heldOf ops x := by
  have hNew : (new id : FugueList Element).seated x = .vacant := by
    rw [seated_eq, ← (refines_new id : Refines (new id : FugueList Element) ∅).cell x]
    simp [Seated.ofCell]
  rw [folded, (foldl_spec (wf_new id) ops).2, hNew]
  rfl

/-- What is held against the claims: the least of them, or a tombstone where one of them
was, no later than the least. -/
def Tracks (ops : List SeqOp) (x : Stamp) : Seated → Prop
  | .vacant => ∀ r, ¬Claimed ops x r
  | .live r => Claimed ops x r ∧ ∀ c, Claimed ops x c → r ≤ c
  | .dead taken => (∃ r, Claimed ops x r ∧ r.anchor = taken) ∧
      ∀ m, Claimed ops x m → (∀ c, Claimed ops x c → m ≤ c) → taken ≤ m.anchor

theorem claimed_append {ops : List SeqOp} {op : SeqOp} {r : Rank} :
    Claimed (ops ++ [op]) x r ↔ Claimed ops x r ∨
      ∃ value anchor, op = .claim x value anchor ∧ claimRank value anchor = r := by
  unfold Claimed
  constructor
  · rintro ⟨value, anchor, hMem, rfl⟩
    rcases List.mem_append.mp hMem with hMem | hMem
    · exact .inl ⟨value, anchor, hMem, rfl⟩
    · exact .inr ⟨value, anchor, (List.mem_singleton.mp hMem).symm, rfl⟩
  · rintro (⟨value, anchor, hMem, rfl⟩ | ⟨value, anchor, rfl, rfl⟩)
    · exact ⟨value, anchor, List.mem_append_left _ hMem, rfl⟩
    · exact ⟨value, anchor, List.mem_append_right _ (List.mem_singleton.mpr rfl), rfl⟩

theorem Tracks.skip {ops : List SeqOp} {op : SeqOp} {held : Seated} (h : Tracks ops x held)
    (hOp : ∀ value anchor, op ≠ .claim x value anchor) : Tracks (ops ++ [op]) x held := by
  have hSame : ∀ r, Claimed (ops ++ [op]) x r ↔ Claimed ops x r := by
    intro r
    rw [claimed_append]
    refine or_iff_left ?_
    rintro ⟨value, anchor, hEq, -⟩
    exact hOp value anchor hEq
  cases held <;> simpa only [Tracks, hSame] using h

theorem Tracks.claim {ops : List SeqOp} {held : Seated} (h : Tracks ops x held) (value : Element)
    (anchor : Anchor) :
    Tracks (ops ++ [.claim x value anchor]) x (held.claim (claimRank value anchor)) := by
  have hClaimed : ∀ r, Claimed (ops ++ [.claim x value anchor]) x r ↔
      Claimed ops x r ∨ claimRank value anchor = r := by
    intro r
    rw [claimed_append]
    refine or_congr_right ⟨?_, fun hr => ⟨value, anchor, rfl, hr⟩⟩
    rintro ⟨value', anchor', hEq, hr⟩
    obtain ⟨-, rfl, rfl⟩ := SeqOp.claim.inj hEq
    exact hr
  cases held with
  | vacant =>
    refine ⟨(hClaimed _).mpr (.inr rfl), fun c hc => ?_⟩
    rcases (hClaimed c).mp hc with hc | rfl
    · exact absurd hc (h c)
    · exact le_rfl
  | live r =>
    obtain ⟨hr, hLeast⟩ := h
    refine ⟨(hClaimed _).mpr ?_, fun c hc => ?_⟩
    · rcases min_choice r (claimRank value anchor) with hMin | hMin
      · rw [hMin]
        exact .inl hr
      · exact .inr hMin.symm
    · rcases (hClaimed c).mp hc with hc | rfl
      · exact (min_le_left _ _).trans (hLeast c hc)
      · exact min_le_right _ _
  | dead taken =>
    obtain ⟨⟨r, hr, hAnchor⟩, hBound⟩ := h
    constructor
    · rcases min_choice taken anchor with hMin | hMin
      · exact ⟨r, (hClaimed r).mpr (.inl hr), hAnchor.trans hMin.symm⟩
      · exact ⟨claimRank value anchor, (hClaimed _).mpr (.inr rfl), hMin.symm⟩
    · intro m hm hLeast
      rcases (hClaimed m).mp hm with hm | rfl
      · refine (min_le_left _ _).trans (hBound m hm fun c hc => ?_)
        exact hLeast c ((hClaimed c).mpr (.inl hc))
      · exact min_le_right _ _

theorem Tracks.delete {ops : List SeqOp} {held : Seated} (h : Tracks ops x held) :
    Tracks ops x held.delete := by
  cases held with
  | vacant => exact h
  | dead taken => exact h
  | live r =>
    obtain ⟨hr, hLeast⟩ := h
    exact ⟨⟨r, hr, rfl⟩, fun m hm hm' => by rw [le_antisymm (hm' r hr) (hLeast m hm)]⟩

theorem tracks_heldOf (ops : List SeqOp) (x : Stamp) : Tracks ops x (heldOf ops x) := by
  induction ops using List.reverseRecOn with
  | nil =>
    rintro r ⟨_, _, hMem, -⟩
    cases hMem
  | append_singleton ops op ih =>
    rw [heldOf, List.foldl_append]
    change Tracks _ x (op.seats x (heldOf ops x))
    cases op with
    | claim id value anchor =>
      rw [SeqOp.seats]
      split
      next hId =>
        subst hId
        exact ih.claim value anchor
      next hId =>
        refine ih.skip fun value' anchor' hEq => hId ?_
        exact (SeqOp.claim.inj hEq).1
    | delete id =>
      rw [SeqOp.seats]
      split
      · exact ih.delete.skip fun _ _ hEq => nomatch hEq
      · exact ih.skip fun _ _ hEq => nomatch hEq

/-- A tombstone stays one, at no greater an anchor. -/
theorem foldl_seats_dead (ops : List SeqOp) (x : Stamp) (taken : Anchor) :
    ∃ t ≤ taken, ops.foldl (fun held op => op.seats x held) (.dead taken) = .dead t := by
  induction ops generalizing taken with
  | nil => exact ⟨taken, le_rfl, rfl⟩
  | cons op ops ih =>
    rw [List.foldl_cons]
    cases op with
    | claim id value anchor =>
      rw [SeqOp.seats]
      split
      next =>
        obtain ⟨t, hLe, hEq⟩ := ih (min taken (claimRank value anchor).anchor)
        exact ⟨t, hLe.trans (min_le_left _ _), hEq⟩
      next => exact ih taken
    | delete id =>
      rw [SeqOp.seats]
      split
      · exact ih taken
      · exact ih taken

/-- Where every delete waits for its claim, a deleted id is a tombstone. -/
theorem Causal.heldOf_dead {ops : List SeqOp} (h : Causal ops) (hDelete : .delete x ∈ ops) :
    ∃ t, heldOf ops x = .dead t := by
  obtain ⟨before, after, rfl⟩ := List.append_of_mem hDelete
  obtain ⟨value, anchor, hClaim⟩ := h before after x rfl
  have hBefore := tracks_heldOf before x
  have hSplit : heldOf (before ++ .delete x :: after) x =
      after.foldl (fun held op => op.seats x held) (heldOf before x).delete := by
    rw [heldOf, List.foldl_append, List.foldl_cons]
    change after.foldl _ (SeqOp.seats x (.delete x) (heldOf before x)) = _
    rw [SeqOp.seats, if_pos rfl]
  rw [hSplit]
  cases hHeld : heldOf before x with
  | vacant =>
    rw [hHeld] at hBefore
    exact absurd ⟨value, anchor, hClaim, rfl⟩ (hBefore _)
  | live r =>
    obtain ⟨t, -, hEq⟩ := foldl_seats_dead after x r.anchor
    exact ⟨t, hEq⟩
  | dead taken =>
    obtain ⟨t, -, hEq⟩ := foldl_seats_dead after x taken
    exact ⟨t, hEq⟩

theorem heldOf_not_dead {ops : List SeqOp} (hDelete : .delete x ∉ ops) :
    ∀ t, heldOf ops x ≠ .dead t := by
  induction ops using List.reverseRecOn with
  | nil => exact fun t => Seated.noConfusion
  | append_singleton ops op ih =>
    rw [List.mem_append, not_or] at hDelete
    have hOps := ih hDelete.1
    intro t
    rw [heldOf, List.foldl_append]
    change op.seats x (heldOf ops x) ≠ _
    cases op with
    | claim id value anchor =>
      rw [SeqOp.seats]
      split
      · cases hHeld : heldOf ops x with
        | vacant => exact Seated.noConfusion
        | live r => exact Seated.noConfusion
        | dead taken => exact absurd hHeld (hOps taken)
      · exact hOps t
    | delete id =>
      rw [SeqOp.seats, if_neg]
      · exact hOps t
      · rintro rfl
        exact hDelete.2 (List.mem_singleton.mpr rfl)

end Folds

section Union

variable {A B U : List SeqOp}

theorem claimed_union (hMem : ∀ op, op ∈ U ↔ op ∈ A ∨ op ∈ B) (r : Rank) :
    Claimed U x r ↔ Claimed A x r ∨ Claimed B x r := by
  unfold Claimed
  constructor
  · rintro ⟨value, anchor, hOp, rfl⟩
    exact ((hMem _).mp hOp).imp (fun h => ⟨value, anchor, h, rfl⟩) fun h => ⟨value, anchor, h, rfl⟩
  · rintro (⟨value, anchor, hOp, rfl⟩ | ⟨value, anchor, hOp, rfl⟩)
    · exact ⟨value, anchor, (hMem _).mpr (.inl hOp), rfl⟩
    · exact ⟨value, anchor, (hMem _).mpr (.inr hOp), rfl⟩

/-- Nothing is deleted: the lesser of two least claims is the least of all. -/
theorem Tracks.merge {a b u : Seated} (ha : Tracks A x a) (hb : Tracks B x b) (hu : Tracks U x u)
    (hClaimed : ∀ r, Claimed U x r ↔ Claimed A x r ∨ Claimed B x r)
    (hLive : (∀ t, a ≠ .dead t) ∧ (∀ t, b ≠ .dead t) ∧ ∀ t, u ≠ .dead t) : b.merge a = u := by
  obtain ⟨hLiveA, hLiveB, hLiveU⟩ := hLive
  cases u with
  | dead t => exact absurd rfl (hLiveU t)
  | vacant =>
    cases a with
    | dead t => exact absurd rfl (hLiveA t)
    | live r => exact absurd ((hClaimed r).mpr (.inl ha.1)) (hu r)
    | vacant =>
      cases b with
      | dead t => exact absurd rfl (hLiveB t)
      | live r => exact absurd ((hClaimed r).mpr (.inr hb.1)) (hu r)
      | vacant => rfl
  | live r =>
    obtain ⟨hr, hLeast⟩ := hu
    cases a with
    | dead t => exact absurd rfl (hLiveA t)
    | vacant =>
      cases b with
      | dead t => exact absurd rfl (hLiveB t)
      | vacant =>
        rcases (hClaimed r).mp hr with hr | hr
        · exact absurd hr (ha r)
        · exact absurd hr (hb r)
      | live s =>
        have hInB := ((hClaimed r).mp hr).resolve_left (ha r)
        exact congrArg Seated.live
          (le_antisymm (hb.2 r hInB) (hLeast s ((hClaimed s).mpr (.inr hb.1))))
    | live s =>
      have hLow := hLeast s ((hClaimed s).mpr (.inl ha.1))
      cases b with
      | dead t => exact absurd rfl (hLiveB t)
      | vacant =>
        have hInA := ((hClaimed r).mp hr).resolve_right (hb r)
        exact congrArg Seated.live (le_antisymm (ha.2 r hInA) hLow)
      | live s' =>
        refine congrArg Seated.live (le_antisymm ?_ (le_min hLow ?_))
        · rcases (hClaimed r).mp hr with hr | hr
          · exact (min_le_left _ _).trans (ha.2 r hr)
          · exact (min_le_right _ _).trans (hb.2 r hr)
        · exact hLeast s' ((hClaimed s').mpr (.inr hb.1))

/-- A deleted id is where every claim on it agrees it is: no claim names a lesser anchor, and
the least claim names that one. -/
def Settles (A B : List SeqOp) (l l' : FugueList Element) (x : Stamp) : Prop :=
  .delete x ∈ A ∨ .delete x ∈ B → ∀ t, (l.anchorOf x).or (l'.anchorOf x) = some t →
    ∀ r, Claimed (A ++ B) x r →
      t ≤ r.anchor ∧ ((∀ c, Claimed (A ++ B) x c → r ≤ c) → r.anchor = t)

def SeqOp.isClaim : SeqOp → Bool
  | .claim _ _ _ => true
  | .delete _ => false

/-- The claims before the deletes. -/
def claimsFirst (ops : List SeqOp) : List SeqOp :=
  ops.filter SeqOp.isClaim ++ ops.filter fun op => !op.isClaim

omit [IdBytes] in
theorem mem_claimsFirst {ops : List SeqOp} {op : SeqOp} : op ∈ claimsFirst ops ↔ op ∈ ops := by
  rw [claimsFirst, List.mem_append, List.mem_filter, List.mem_filter]
  cases op.isClaim <;> simp

theorem claimed_filter {ops : List SeqOp} (r : Rank) :
    Claimed (ops.filter SeqOp.isClaim) x r ↔ Claimed ops x r := by
  unfold Claimed
  simp only [List.mem_filter, SeqOp.isClaim, and_true]

theorem heldOf_claims {ops : List SeqOp} {r : Rank} (hr : Claimed ops x r) :
    ∃ m, heldOf (ops.filter SeqOp.isClaim) x = .live m ∧ Claimed ops x m ∧
      ∀ c, Claimed ops x c → m ≤ c := by
  have hTracks := tracks_heldOf (ops.filter SeqOp.isClaim) x
  have hAlive : SeqOp.delete x ∉ ops.filter SeqOp.isClaim := by
    simp [List.mem_filter, SeqOp.isClaim]
  cases hHeld : heldOf (ops.filter SeqOp.isClaim) x with
  | vacant =>
    rw [hHeld] at hTracks
    exact absurd ((claimed_filter r).mpr hr) (hTracks r)
  | live m =>
    rw [hHeld] at hTracks
    refine ⟨m, rfl, (claimed_filter m).mp hTracks.1, fun c hc => ?_⟩
    exact hTracks.2 c ((claimed_filter c).mpr hc)
  | dead t => exact absurd hHeld (heldOf_not_dead hAlive t)

theorem foldl_seats_deletes {ops : List SeqOp} (hDeletes : ∀ op ∈ ops, op.isClaim = false)
    (hDelete : .delete x ∈ ops) (r : Rank) :
    ops.foldl (fun held op => op.seats x held) (.live r) = .dead r.anchor := by
  have hStay : ∀ ops : List SeqOp, (∀ op ∈ ops, op.isClaim = false) →
      ops.foldl (fun held op => op.seats x held) (.dead r.anchor) = .dead r.anchor := by
    intro ops hAll
    induction ops with
    | nil => rfl
    | cons op ops ih =>
      obtain ⟨hFirst, hRest⟩ := List.forall_mem_cons.mp hAll
      cases op with
      | claim => cases hFirst
      | delete id =>
        rw [List.foldl_cons, SeqOp.seats]
        split
        · exact ih hRest
        · exact ih hRest
  induction ops with
  | nil => cases hDelete
  | cons op ops ih =>
    obtain ⟨hFirst, hRest⟩ := List.forall_mem_cons.mp hDeletes
    cases op with
    | claim => cases hFirst
    | delete id =>
      rw [List.foldl_cons, SeqOp.seats]
      split
      next => exact hStay ops hRest
      next hId =>
        refine ih hRest ?_
        rcases List.mem_cons.mp hDelete with hEq | hMem
        · exact absurd (SeqOp.delete.inj hEq).symm hId
        · exact hMem

omit [IdBytes] in
theorem Causal.append (hA : Causal A) (hB : Causal B) : Causal (A ++ B) := by
  intro before after y hSplit
  rcases List.append_eq_append_iff.mp hSplit with ⟨mid, rfl, hRest⟩ | ⟨mid, hRest, hEq⟩
  · obtain ⟨value, anchor, hMem⟩ := hB mid after y hRest
    exact ⟨value, anchor, List.mem_append_right _ hMem⟩
  · cases mid with
    | nil =>
      obtain ⟨_, _, hMem⟩ := hB [] after y hEq.symm
      cases hMem
    | cons op mid =>
      obtain ⟨rfl, -⟩ := List.cons.inj hEq
      exact hA before mid y hRest

omit [IdBytes] in
theorem Causal.claimsFirst {ops : List SeqOp} (h : Causal ops) : Causal (claimsFirst ops) := by
  intro before after y hSplit
  have hDelete : .delete y ∈ ops := by
    rw [← mem_claimsFirst, hSplit]
    exact List.mem_append_right _ List.mem_cons_self
  obtain ⟨first, rest, hOps⟩ := List.append_of_mem hDelete
  obtain ⟨value, anchor, hMem⟩ := h first rest y hOps
  have hClaim : .claim y value anchor ∈ ops.filter SeqOp.isClaim := by
    rw [List.mem_filter, hOps]
    exact ⟨List.mem_append_left _ hMem, rfl⟩
  refine ⟨value, anchor, ?_⟩
  rcases List.append_eq_append_iff.mp hSplit with ⟨mid, rfl, -⟩ | ⟨mid, hClaims, hEq⟩
  · exact List.mem_append_left _ hClaim
  · cases mid with
    | nil =>
      rw [List.append_nil] at hClaims
      exact hClaims ▸ hClaim
    | cons op mid =>
      obtain ⟨rfl, -⟩ := List.cons.inj hEq
      have hIn : .delete y ∈ ops.filter SeqOp.isClaim := by
        rw [hClaims]
        exact List.mem_append_right _ List.mem_cons_self
      cases (List.mem_filter.mp hIn).2

/-- Merging two folds is folding their ops, in whatever order, just when every id deleted
in either is where every claim on it agrees it is. -/
theorem merge_folded_iff (id : ElementId) (hA : Causal A) (hB : Causal B) :
    (∀ U, (∀ op, op ∈ U ↔ op ∈ A ∨ op ∈ B) → Causal U →
      Same ((folded id A).merge (folded id B)) (folded id U)) ↔
    ∀ x, Settles A B (folded id A) (folded id B) x := by
  have hWF : ∀ ops, (folded id ops).WF := fun ops => (foldl_spec (wf_new id) ops).1
  have hMerged : ∀ x, ((folded id A).merge (folded id B)).seated x =
      (heldOf B x).merge (heldOf A x) := by
    intro x
    rw [seated_merge (hWF A) (hWF B), seated_folded, seated_folded]
  have hAt : ∀ ops x, (folded id ops).anchorOf x = (heldOf ops x).anchorOf := by
    intro ops x
    rw [anchorOf_eq_seated, seated_folded]
  have hDead : ∀ x, .delete x ∈ A ∨ .delete x ∈ B →
      ∃ t, ((folded id A).anchorOf x).or ((folded id B).anchorOf x) = some t ∧
        (heldOf B x).merge (heldOf A x) = .dead t := by
    intro x hDelete
    rw [hAt, hAt]
    exact Seated.merge_of_dead (hDelete.imp hA.heldOf_dead hB.heldOf_dead)
  have hAll : ∀ op, op ∈ A ++ B ↔ op ∈ A ∨ op ∈ B := fun op => List.mem_append
  constructor
  · intro hJoin x hDelete t hAnchor r hr
    obtain ⟨t', hAnchor', hHeld⟩ := hDead x hDelete
    obtain rfl : t' = t := Option.some.inj (hAnchor'.symm.trans hAnchor)
    have hFirst := hA.append hB |>.claimsFirst
    constructor
    · -- Fold the claim and a delete first: the tombstone is no further than the claim.
      obtain ⟨value, anchor, hMem, rfl⟩ := hr
      have hPre : Causal [.claim x value anchor, .delete x] := by
        intro before after y hSplit
        match before, hSplit with
        | [], hSplit => cases (List.cons.inj hSplit).1
        | [_], hSplit =>
          obtain ⟨rfl, hRest⟩ := List.cons.inj hSplit
          obtain ⟨hEq, -⟩ := List.cons.inj hRest
          obtain rfl := SeqOp.delete.inj hEq
          exact ⟨value, anchor, List.mem_cons_self⟩
        | _ :: _ :: before, hSplit =>
          have hLength := congrArg List.length hSplit
          simp only [List.length_cons, List.length_nil, List.length_append] at hLength
          omega
      have hEq := hJoin _ (fun op => by
        rw [List.mem_append, mem_claimsFirst, hAll]
        refine or_iff_right_of_imp fun hOp => ?_
        rcases List.mem_cons.mp hOp with rfl | hOp
        · exact (hAll _).mp hMem
        · rw [List.mem_singleton.mp hOp]
          exact hDelete) (hPre.append hFirst) x
      rw [hMerged, hHeld, seated_folded, heldOf, List.foldl_append] at hEq
      obtain ⟨t, hLe, hRest⟩ := foldl_seats_dead (claimsFirst (A ++ B)) x anchor
      have hHead : [SeqOp.claim x value anchor, .delete x].foldl (fun held op => op.seats x held)
          .vacant = .dead anchor := by
        simp only [List.foldl_cons, List.foldl_nil, SeqOp.seats, if_pos]
        rfl
      rw [hHead, hRest] at hEq
      obtain rfl := Seated.dead.inj hEq
      exact hLe
    · -- Fold the claims first: the tombstone is where the least of them is.
      intro hLeast
      have hEq := hJoin _ (fun op => by rw [mem_claimsFirst, hAll]) hFirst x
      obtain ⟨m, hFold, hm, hLe⟩ := heldOf_claims hr
      have hIn : .delete x ∈ (A ++ B).filter fun op => !op.isClaim :=
        List.mem_filter.mpr ⟨(hAll _).mpr hDelete, rfl⟩
      rw [hMerged, hHeld, seated_folded, heldOf, claimsFirst, List.foldl_append] at hEq
      change _ = List.foldl _ (heldOf ((A ++ B).filter SeqOp.isClaim) x) _ at hEq
      rw [hFold, foldl_seats_deletes (fun op hOp => by simpa using (List.mem_filter.mp hOp).2) hIn] at hEq
      rw [le_antisymm (hLeast m hm) (hLe r hr)]
      exact (Seated.dead.inj hEq).symm
  · intro hSettles U hMem hU x
    have hClaimed := claimed_union (x := x) hMem
    have hTracks := tracks_heldOf U x
    rw [hMerged, seated_folded]
    by_cases hDelete : .delete x ∈ A ∨ .delete x ∈ B
    · obtain ⟨t, hAnchor, hHeld⟩ := hDead x hDelete
      obtain ⟨u, hu⟩ := hU.heldOf_dead ((hMem _).mpr hDelete)
      have hAllClaimed := claimed_union (x := x) hAll
      rw [hu] at hTracks
      obtain ⟨⟨r, hr, rfl⟩, hBound⟩ := hTracks
      have hIff : ∀ c, Claimed U x c ↔ Claimed (A ++ B) x c := fun c => by
        rw [hClaimed, hAllClaimed]
      obtain ⟨m, -, hm, hLe⟩ := heldOf_claims ((hIff r).mp hr)
      have hLow := (hSettles x hDelete t hAnchor r ((hIff r).mp hr)).1
      have hHigh := hBound m ((hIff m).mpr hm) fun c hc => hLe c ((hIff c).mp hc)
      rw [(hSettles x hDelete t hAnchor m hm).2 hLe] at hHigh
      rw [hHeld, hu, le_antisymm hLow hHigh]
    · rw [not_or] at hDelete
      refine (tracks_heldOf A x).merge (tracks_heldOf B x) hTracks hClaimed ⟨?_, ?_, ?_⟩
      · exact heldOf_not_dead hDelete.1
      · exact heldOf_not_dead hDelete.2
      · exact heldOf_not_dead fun hIn => ((hMem _).mp hIn).elim hDelete.1 hDelete.2

/-- Merging is idempotent. It is commutative just where neither list has deleted an id the
other anchors elsewhere, associative just where no claim that a lesser one moves is deleted
by the third list alone, and it folds the union of two sets of ops just when every deleted
id is where its claims agree it is. -/
theorem merge_join :
    (∀ l : FugueList Element, Reached l → Same (l.merge l) l) ∧
    (∀ l l' : FugueList Element, Reached l → Reached l' →
      (Same (l.merge l') (l'.merge l) ↔ ∀ x, Seated.Agrees (l.seated x) (l'.seated x))) ∧
    (∀ l l' l'' : FugueList Element, Reached l → Reached l' → Reached l'' →
      (Same ((l.merge l').merge l'') (l.merge (l'.merge l'')) ↔
        ∀ x, Seated.Associates (l.seated x) (l'.seated x) (l''.seated x))) ∧
    ∀ id A B, Causal A → Causal B →
      ((∀ U, (∀ op, op ∈ U ↔ op ∈ A ∨ op ∈ B) → Causal U →
        Same ((folded id A).merge (folded id B)) (folded id U)) ↔
      ∀ x, Settles A B (folded id A) (folded id B) x) := by
  refine ⟨fun l h => same_merge_self h.canonical.wf, fun l l' h h' => ?_, fun l l' l'' h h' h'' => ?_,
    fun id A B hA hB => merge_folded_iff id hA hB⟩
  · refine forall_congr' fun x => ?_
    rw [seated_merge h.canonical.wf h'.canonical.wf, seated_merge h'.canonical.wf h.canonical.wf]
    exact Seated.merge_comm_iff _ _
  · refine forall_congr' fun x => ?_
    have hFirst := (h.canonical.merge h'.canonical).wf
    have hRest := (h'.canonical.merge h''.canonical).wf
    rw [seated_merge hFirst h''.canonical.wf, seated_merge h.canonical.wf h'.canonical.wf,
      seated_merge h.canonical.wf hRest, seated_merge h'.canonical.wf h''.canonical.wf]
    exact Seated.merge_assoc_iff _ _ _

end Union

end FugueList

section Examples

open FugueList

local instance joinIdBytes : IdBytes := IdBytes.spelled

/-- One id claimed at the root's right, and deleted. -/
def struck : List SeqOp :=
  [.claim ⟨1, ⟨1⟩, 0⟩ (.scalar .null) ⟨none, .right⟩, .delete ⟨1, ⟨1⟩, 0⟩]

theorem causal_struck : Causal struck := by
  intro before after x hSplit
  match before, hSplit with
  | [], hSplit => cases (List.cons.inj hSplit).1
  | [op], hSplit =>
    obtain ⟨rfl, hRest⟩ := List.cons.inj hSplit
    obtain rfl := SeqOp.delete.inj (List.cons.inj hRest).1
    exact ⟨_, _, List.mem_cons_self⟩
  | _ :: _ :: before, hSplit =>
    have hLength := congrArg List.length hSplit
    simp only [struck, List.length_cons, List.length_nil, List.length_append] at hLength
    omega

/-- The same claim, delivered alone to a peer: one is folded over the other either way. -/
theorem merge_join_struck :
    Same ((typed.deleteId ⟨1, ⟨1⟩, 0⟩).merge typed) (typed.merge (typed.deleteId ⟨1, ⟨1⟩, 0⟩)) ∧
      Same ((folded (.fromBytes 0) struck).merge (folded (.fromBytes 0) (struck.take 1)))
        (folded (.fromBytes 0) struck) := by
  have hTake : Causal (struck.take 1) := by
    intro before after x hSplit
    match before, hSplit with
    | [], hSplit => cases (List.cons.inj hSplit).1
    | _ :: before, hSplit =>
      have hLength := congrArg List.length hSplit
      simp only [struck, List.take, List.length_cons, List.length_nil, List.length_append] at hLength
      omega
  constructor
  · refine (merge_join.2.1 _ typed (reached_typed.deleteId _) reached_typed).mpr fun x => ?_
    have hSeated : (typed.deleteId ⟨1, ⟨1⟩, 0⟩).seated x = _ :=
      ((SeqOp.delete ⟨1, ⟨1⟩, 0⟩).apply_spec reached_typed.canonical.wf).2 x
    rw [hSeated, SeqOp.seats]
    split
    · cases typed.seated x with
      | vacant => exact trivial
      | live r => exact (rfl : r.anchor = r.anchor)
      | dead taken => exact (rfl : taken = taken)
    · cases typed.seated x with
      | vacant => exact trivial
      | live r => exact trivial
      | dead taken => exact (rfl : taken = taken)
  · refine (merge_join.2.2.2 (.fromBytes 0) struck (struck.take 1) causal_struck hTake).mpr ?_ _ ?_
      causal_struck
    · rintro x hDelete t hAnchor r ⟨value, anchor, hClaim, rfl⟩
      have hEq : SeqOp.claim x value anchor =
          .claim ⟨1, ⟨1⟩, 0⟩ (.scalar .null) ⟨none, .right⟩ := by
        simpa [struck] using hClaim
      obtain ⟨rfl, rfl, rfl⟩ := SeqOp.claim.inj hEq
      have hHeld : ((folded (.fromBytes 0) struck).anchorOf ⟨1, ⟨1⟩, 0⟩).or
          ((folded (.fromBytes 0) (struck.take 1)).anchorOf ⟨1, ⟨1⟩, 0⟩) = some ⟨none, .right⟩ := by
        decide +kernel
      obtain rfl := Option.some.inj (hHeld.symm.trans hAnchor)
      exact ⟨le_rfl, fun _ => rfl⟩
    · intro op
      exact (or_iff_left_of_imp fun hOp => List.mem_of_mem_take hOp).symm

/-- The id claimed at the root's left by a peer: each replica keeps its own anchor, and
only one of them keeps the anchor both ops give. -/
theorem merge_keeps_own_anchor :
    let mine := folded (.fromBytes 0) struck
    let peer := folded (.fromBytes 0) [.claim ⟨1, ⟨1⟩, 0⟩ (.scalar .null) ⟨none, .left⟩]
    let all := folded (.fromBytes 0)
      (struck ++ [.claim ⟨1, ⟨1⟩, 0⟩ (.scalar .null) ⟨none, .left⟩])
    (mine.merge peer).anchorOf ⟨1, ⟨1⟩, 0⟩ = some ⟨none, .right⟩ ∧
      (peer.merge mine).anchorOf ⟨1, ⟨1⟩, 0⟩ = some ⟨none, .left⟩ ∧
      all.anchorOf ⟨1, ⟨1⟩, 0⟩ = some ⟨none, .left⟩ := by
  decide +kernel

end Examples

end CrdtSync
