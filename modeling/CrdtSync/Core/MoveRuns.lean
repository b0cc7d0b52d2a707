import CrdtSync.Core.MoveReplay

/-!
# Runs of the move log

Links, moves and withdrawals in any order. Where the created-under links close no
cycle and each is there before a move reaches it, every state is the fold, in stamp
order, of the moves still logged, and a withdrawn move leaves no trace.
-/

namespace CrdtSync

open Lib
open Std (ExtTreeMap)

/-! ### The fold -/

section Fold

variable {up : ElementId → Option ElementId}

open Classical in
/-- Hang a child under its new parent, unless that makes it its own ancestor. -/
noncomputable def hangMove (up : ElementId → Option ElementId) (e : Move) :
    ElementId → Option ElementId :=
  if Above (Function.update up e.child (some e.parent)) e.child e.child then up
  else Function.update up e.child (some e.parent)

noncomputable def foldMoves (up : ElementId → Option ElementId) (moves : List Move) :
    ElementId → Option ElementId := moves.foldl hangMove up

theorem above_update {x y : ElementId} (h : Acyclic up) (hAbove : Above up x y)
    (link : Option ElementId) : Above (Function.update up y link) x y := by
  have hOff : ∀ z, Above up z y → z ≠ y := by
    rintro z hz rfl
    exact h z hz
  induction hAbove using Relation.TransGen.head_induction_on with
  | @single x hx =>
    apply Above.single
    rw [Function.update_of_ne (hOff x (.single hx))]
    exact hx
  | @head x z hx hz ih =>
    refine Above.trans (.single ?_) ih
    rw [Function.update_of_ne (hOff x (.trans (.single hx) hz))]
    exact hx

theorem above_self_iff (h : Acyclic up) (child parent : ElementId) :
    Above (Function.update up child (some parent)) child child ↔
      child = parent ∨ Above up parent child := by
  constructor
  · intro hSelf
    obtain hSame | hApart := eq_or_ne child parent
    · exact .inl hSame
    · refine .inr (Classical.byContradiction fun hBelow => ?_)
      exact h.hang hApart hBelow child hSelf
  · rintro (rfl | hAbove)
    · exact .single (Function.update_self ..)
    · exact .trans (.single (Function.update_self ..)) (above_update h hAbove _)

end Fold

namespace TreeMoves

variable {m m' : TreeMoves}

theorem parentOf_redoMove (h : Acyclic m.parentOf) (e : Move) :
    (m.redoMove e).parentOf = hangMove m.parentOf e := by
  have hGate : (e.child ≠ e.parent ∧ m.isAncestor e.child e.parent = false) ↔
      ¬Above (Function.update m.parentOf e.child (some e.parent)) e.child e.child := by
    rw [above_self_iff h, ← isAncestor_iff h, not_or, Bool.not_eq_true]
  rw [parentOf_redo, hangMove]
  split
  next hTakes => rw [if_neg (hGate.mp hTakes)]
  next hSkips => rw [if_pos (Classical.not_not.mp fun hNot => hSkips (hGate.mpr hNot))]

theorem parentOf_replay {base : Parents} (h : Acyclic (parentIn base)) (moves : List Move) :
    (replay base moves).parentOf = foldMoves (parentIn base) moves := by
  have hFold : ∀ m : TreeMoves, Acyclic m.parentOf →
      (moves.foldl redoMove m).parentOf = foldMoves m.parentOf moves := by
    induction moves with
    | nil => exact fun m _ => rfl
    | cons e moves ih =>
      intro m hm
      rw [List.foldl_cons, ih _ (acyclic_redoMove hm e), parentOf_redoMove hm]
      rfl
  have hBare : (⟨∅, base, []⟩ : TreeMoves).parentOf = parentIn base := by
    funext x
    simp [parentOf, parentIn]
  rw [replay, hFold _ (hBare ▸ h), hBare]

/-! ### Events -/

end TreeMoves

inductive MoveEvent
  | setBase (child parent : ElementId)
  | apply (e : Move)
  | remove (e : Move)
deriving DecidableEq

/-- The moves still in the log: what arrived and was not withdrawn since. -/
def recordMove (held : Finset Move) : MoveEvent → Finset Move
  | .setBase _ _ => held
  | .apply e => insert e held
  | .remove e => held.erase e

def loggedMoves (events : List MoveEvent) : Finset Move := events.foldl recordMove ∅

/-- No two moves that arrive share a stamp. -/
def DistinctStamps (events : List MoveEvent) : Prop :=
  ∀ e e', .apply e ∈ events → .apply e' ∈ events → e.stamp = e'.stamp → e = e'

/-- What a walk up from a logged parent can meet. -/
inductive Reached (base : Parents) (moves : List Move) : ElementId → Prop
  | logged {e : Move} (h : e ∈ moves) : Reached base moves e.parent
  | linked {x y : ElementId} (hx : Reached base moves x) (h : base[x]? = some y) :
      Reached base moves y

theorem Reached.mono {base : Parents} {moves moves' : List Move} (h : ∀ e ∈ moves', e ∈ moves)
    {x : ElementId} (hx : Reached base moves' x) : Reached base moves x := by
  induction hx with
  | logged he => exact .logged (h _ he)
  | linked _ hLink ih => exact .linked ih hLink

namespace TreeMoves

variable {m m' : TreeMoves}

def step (m : TreeMoves) : MoveEvent → TreeMoves
  | .setBase child parent => m.setBase child parent
  | .apply e => m.apply e.stamp e.child e.parent
  | .remove e => m.remove e.stamp e.child e.parent

def run (m : TreeMoves) (events : List MoveEvent) : TreeMoves := events.foldl step m

/-- A link is new to every walk the log makes. -/
def Precedes (m : TreeMoves) : MoveEvent → Prop
  | .setBase child _ => m.base[child]? ≠ none ∨ ¬Reached m.base m.entries child
  | .apply _ | .remove _ => True

/-- Each link is there before the first move that reaches it. -/
def BasesFirst (m : TreeMoves) : List MoveEvent → Prop
  | [] => True
  | event :: events => m.Precedes event ∧ BasesFirst (m.step event) events

theorem encloses_reached (m : TreeMoves) :
    Encloses m.base (Reached m.base m.entries) m.entries :=
  ⟨fun _ he => .logged he, fun _ _ hx h => .linked hx h⟩

/-! ### One event -/

theorem setBase_grows (m : TreeMoves) (child parent x y : ElementId) (h : m.base[x]? = some y) :
    (m.setBase child parent).base[x]? = some y := by
  rw [setBase_base]
  split
  next hSame => rw [← hSame, h, Option.some_or]
  next => exact h

theorem redoAll_base (m : TreeMoves) (ops : List LogOp) : (m.redoAll ops).base = m.base := by
  rw [redoAll_eq, foldl_redoMove_base]

theorem rewind_base (m : TreeMoves) (stamp : Stamp) : (m.rewind stamp).base = m.base := by
  rw [TreeMoves.rewind, foldl_undo]

theorem apply_base (m : TreeMoves) (stamp : Stamp) (child parent : ElementId) :
    (m.apply stamp child parent).base = m.base := by
  unfold TreeMoves.apply
  split
  · rfl
  · rw [redoAll_base]
    exact rewind_base m stamp

theorem remove_base (m : TreeMoves) (stamp : Stamp) (child parent : ElementId) :
    (m.remove stamp child parent).base = m.base := by
  unfold TreeMoves.remove
  split
  · rw [redoAll_base, rewind_base]
  · rfl

/-- The links an event leaves are those before it, and the one it sets. -/
theorem step_base (m : TreeMoves) (event : MoveEvent) :
    (m.step event).base = match event with
      | .setBase child parent => (m.setBase child parent).base
      | .apply _ | .remove _ => m.base := by
  cases event with
  | setBase child parent => rfl
  | apply e => exact apply_base ..
  | remove e => exact remove_base ..

theorem step_grows (m : TreeMoves) (event : MoveEvent) (x y : ElementId) (h : m.base[x]? = some y) :
    (m.step event).base[x]? = some y := by
  rw [step_base]
  cases event with
  | setBase child parent => exact setBase_grows m child parent x y h
  | apply e => exact h
  | remove e => exact h

theorem run_grows (events : List MoveEvent) (m : TreeMoves) (x y : ElementId)
    (h : m.base[x]? = some y) : (m.run events).base[x]? = some y := by
  induction events generalizing m with
  | nil => exact h
  | cons event events ih => exact ih _ (step_grows m event x y h)

/-- The links of a run that closes no cycle never did. -/
theorem acyclic_of_run {events : List MoveEvent} (h : Acyclic (parentIn (m.run events).base)) :
    Acyclic (parentIn m.base) :=
  h.mono fun x y => run_grows events m x y

/-- The log holds what `held` says, and is what replaying it gives. -/
structure Holds (m : TreeMoves) (held : Finset Move) : Prop where
  replays : m.Replays
  entries : ∀ e, e ∈ m.entries ↔ e ∈ held

theorem Holds.step {held : Finset Move} {event : MoveEvent} (h : m.Holds held)
    (hPrecedes : m.Precedes event) (hAcyclic : Acyclic (parentIn (m.step event).base))
    (hDistinct : ∀ e, event = .apply e → ∀ other ∈ held, other.stamp = e.stamp → other = e) :
    (m.step event).Holds (recordMove held event) := by
  cases event with
  | setBase child parent =>
    have hOld : Acyclic (parentIn m.base) := hAcyclic.mono (setBase_grows m child parent)
    refine ⟨h.replays.setBase m.encloses_reached hPrecedes hOld hAcyclic, fun e => ?_⟩
    rw [TreeMoves.step, setBase_entries]
    exact h.entries e
  | apply e =>
    obtain hHeld | hFresh := Classical.em (∃ other ∈ m.entries, other.stamp = e.stamp)
    · have hSame := h.replays.apply_held e.child e.parent hHeld
      obtain ⟨other, hOther, hStamp⟩ := hHeld
      have hIn := (h.entries other).mp hOther
      obtain rfl := hDistinct e rfl other hIn hStamp
      rw [TreeMoves.step, hSame, recordMove, Finset.insert_eq_of_mem hIn]
      exact h
    · have hFresh' : ∀ other ∈ m.entries, other.stamp ≠ e.stamp := fun other hOther hStamp =>
        hFresh ⟨other, hOther, hStamp⟩
      obtain ⟨hReplays, -, hEntries⟩ := h.replays.apply_fresh hFresh'
      refine ⟨hReplays, fun other => ?_⟩
      rw [TreeMoves.step, hEntries, h.entries, recordMove, Finset.mem_insert]
  | remove e =>
    obtain ⟨hReplays, -, hEntries⟩ := h.replays.remove e
    refine ⟨hReplays, fun other => ?_⟩
    rw [TreeMoves.step, hEntries, h.entries, recordMove, Finset.mem_erase, and_comm]

/-! ### Runs -/

theorem mem_foldl_recordMove {events : List MoveEvent} {held : Finset Move} {e : Move}
    (h : e ∈ events.foldl recordMove held) : e ∈ held ∨ .apply e ∈ events := by
  induction events generalizing held with
  | nil => exact .inl h
  | cons event events ih =>
    obtain hHeld | hLater := ih h
    · cases event with
      | setBase child parent => exact .inl hHeld
      | apply other =>
        obtain rfl | hOld := Finset.mem_insert.mp hHeld
        · exact .inr List.mem_cons_self
        · exact .inl hOld
      | remove other => exact .inl (Finset.mem_of_mem_erase hHeld)
    · exact .inr (List.mem_cons_of_mem _ hLater)

theorem distinct_recordMove {event : MoveEvent} {events : List MoveEvent} {held : Finset Move}
    (h : ∀ e e', (e ∈ held ∨ .apply e ∈ event :: events) → .apply e' ∈ event :: events →
      e.stamp = e'.stamp → e = e') (e e' : Move)
    (he : e ∈ recordMove held event ∨ .apply e ∈ events) (he' : .apply e' ∈ events) :
    e.stamp = e'.stamp → e = e' := by
  refine h e e' ?_ (List.mem_cons_of_mem _ he')
  obtain hHeld | hLater := he
  · have hOne : e ∈ [event].foldl recordMove held := hHeld
    obtain hOld | hNew := mem_foldl_recordMove hOne
    · exact .inl hOld
    · exact .inr (List.mem_singleton.mp hNew ▸ List.mem_cons_self)
  · exact .inr (List.mem_cons_of_mem _ hLater)

theorem Holds.run {events : List MoveEvent} {held : Finset Move} (h : m.Holds held)
    (hFirst : m.BasesFirst events) (hAcyclic : Acyclic (parentIn (m.run events).base))
    (hDistinct : ∀ e e', (e ∈ held ∨ .apply e ∈ events) → .apply e' ∈ events →
      e.stamp = e'.stamp → e = e') :
    (m.run events).Holds (events.foldl recordMove held) := by
  induction events generalizing m held with
  | nil => exact h
  | cons event events ih =>
    have hNow : Acyclic (parentIn (m.step event).base) := acyclic_of_run hAcyclic
    refine ih (h.step hFirst.1 hNow ?_) hFirst.2 hAcyclic (distinct_recordMove hDistinct)
    rintro e rfl other hOther hStamp
    exact hDistinct other e (.inl hOther) List.mem_cons_self hStamp

theorem holds_new : new.Holds ∅ :=
  ⟨replays_new, fun e => by simp [entries, new]⟩

theorem BasesFirst.of_append {before after : List MoveEvent} (h : m.BasesFirst (before ++ after)) :
    m.BasesFirst before := by
  induction before generalizing m with
  | nil => trivial
  | cons event before ih => exact ⟨h.1, ih h.2⟩

def without (e : Move) (events : List MoveEvent) : List MoveEvent :=
  events.filter fun event => event ≠ .apply e

theorem without_cons (e : Move) (event : MoveEvent) (events : List MoveEvent) :
    without e (event :: events) =
      if event = .apply e then without e events else event :: without e events := by
  unfold without
  rw [List.filter_cons]
  simp only [decide_eq_true_eq, ne_eq, ite_not]

theorem recordMove_erase {event : MoveEvent} {e : Move} (h : event ≠ .apply e) (held : Finset Move) :
    recordMove (held.erase e) event = (recordMove held event).erase e := by
  cases event with
  | setBase child parent => rfl
  | apply other =>
    have hApart : other ≠ e := fun hSame => h (hSame ▸ rfl)
    exact (Finset.erase_insert_of_ne hApart).symm
  | remove other => exact Finset.erase_right_comm

/-- A log that never held a move ends with the same links and the other moves. -/
theorem Holds.without {events : List MoveEvent} {held : Finset Move} {e : Move} (h : m.Holds held)
    (h' : m'.Holds (held.erase e)) (hBase : m'.base = m.base) (hFirst : m.BasesFirst events)
    (hAcyclic : Acyclic (parentIn (m.run events).base))
    (hDistinct : ∀ e e', (e ∈ held ∨ .apply e ∈ events) → .apply e' ∈ events →
      e.stamp = e'.stamp → e = e') :
    (m'.run (without e events)).Holds ((events.foldl recordMove held).erase e) ∧
      (m'.run (without e events)).base = (m.run events).base := by
  induction events generalizing m m' held with
  | nil => exact ⟨h', hBase⟩
  | cons event events ih =>
    have hNow : Acyclic (parentIn (m.step event).base) := acyclic_of_run hAcyclic
    have hArrives : ∀ e, event = .apply e → ∀ other ∈ held, other.stamp = e.stamp → other = e := by
      rintro e rfl other hOther hStamp
      exact hDistinct other e (.inl hOther) List.mem_cons_self hStamp
    have hStep := h.step hFirst.1 hNow hArrives
    have hRest : ∀ e e', (e ∈ recordMove held event ∨ .apply e ∈ events) → .apply e' ∈ events →
        e.stamp = e'.stamp → e = e' := distinct_recordMove hDistinct
    rw [without_cons]
    split
    next hSkip =>
      subst hSkip
      refine ih hStep ?_ ?_ hFirst.2 hAcyclic hRest
      · rw [recordMove, Finset.erase_insert_eq_erase]
        exact h'
      · rw [hBase, step_base]
    next hKeep =>
      have hBase' : (m'.step event).base = (m.step event).base := by
        rw [step_base, step_base]
        cases event with
        | setBase child parent =>
          apply ExtTreeMap.ext_getElem?
          intro x
          simp only [setBase_base, hBase]
        | apply other => exact hBase
        | remove other => exact hBase
      have hPrecedes : m'.Precedes event := by
        cases event with
        | setBase child parent =>
          refine hFirst.1.imp (fun hHeld => hBase ▸ hHeld) fun hNot hReached => hNot ?_
          rw [hBase] at hReached
          refine hReached.mono fun other hOther => ?_
          exact (h.entries other).mpr (Finset.mem_of_mem_erase ((h'.entries other).mp hOther))
        | apply other => trivial
        | remove other => trivial
      have hStep' := h'.step hPrecedes (hBase' ▸ hNow) fun other hEvent held hHeld =>
        hArrives other hEvent held (Finset.mem_of_mem_erase hHeld)
      rw [recordMove_erase hKeep] at hStep'
      exact ih hStep hStep' hBase' hFirst.2 hAcyclic hRest

/-- After every event the parents are the fold, in stamp order, of the moves still logged over the
created-under links; they close no cycle; and withdrawing a move leaves the state of a run in which
it never arrived. -/
theorem run_eq_fold {events : List MoveEvent} (hDistinct : DistinctStamps events)
    (hFirst : new.BasesFirst events) (hAcyclic : Acyclic (parentIn (new.run events).base))
    {before after : List MoveEvent} (hSplit : events = before ++ after) :
    let m := new.run before
    (∀ e, e ∈ m.entries ↔ e ∈ loggedMoves before) ∧
      m.entries.Pairwise (fun a b => a.stamp < b.stamp) ∧
      m.parentOf = foldMoves (parentIn m.base) m.entries ∧ Acyclic m.parentOf ∧
      ∀ e, m.step (.remove e) = new.run (without e before) := by
  intro m
  subst hSplit
  have hNow : Acyclic (parentIn m.base) := by
    have hAll : m.run after = new.run (before ++ after) := List.foldl_append.symm
    exact acyclic_of_run (hAll ▸ hAcyclic)
  have hApart : ∀ e e', (e ∈ (∅ : Finset Move) ∨ .apply e ∈ before) → .apply e' ∈ before →
      e.stamp = e'.stamp → e = e' := by
    rintro e e' (hNone | he) he'
    · cases hNone
    · exact hDistinct e e' (List.mem_append_left _ he) (List.mem_append_left _ he')
  have hHolds : m.Holds (loggedMoves before) := holds_new.run hFirst.of_append hNow hApart
  refine ⟨hHolds.entries, hHolds.replays.sorted, ?_, hHolds.replays.acyclic hNow, fun e => ?_⟩
  · conv_lhs => rw [hHolds.replays.eq]
    exact parentOf_replay hNow m.entries
  · obtain ⟨hReplays, -, hEntries⟩ := hHolds.replays.remove e
    have hErased : new.Holds ((∅ : Finset Move).erase e) := by
      rw [Finset.erase_empty]
      exact holds_new
    obtain ⟨hWithout, hBase⟩ := holds_new.without hErased rfl hFirst.of_append hNow hApart
    refine hReplays.unique hWithout.replays ?_ fun other => ?_
    · rw [remove_base]
      exact hBase.symm
    · rw [hEntries, hHolds.entries, hWithout.entries, Finset.mem_erase, and_comm]
      rfl

section Witness

private def moveNode (n : Fin (2 ^ 128)) : ElementId := .fromBytes n

private def moveStamp (lamport : Nat) : Stamp := ⟨lamport, ⟨0⟩, 0⟩

/-- Two nodes under a root; the later move arrives first, and the earlier one closes a cycle with
it only once both are there. -/
private def crossed : List MoveEvent :=
  [.setBase (moveNode 1) (moveNode 0), .setBase (moveNode 2) (moveNode 0),
    .apply ⟨moveStamp 2, moveNode 2, moveNode 1⟩, .apply ⟨moveStamp 1, moveNode 1, moveNode 2⟩,
    .remove ⟨moveStamp 1, moveNode 1, moveNode 2⟩]

theorem run_eq_fold_crossed :
    (new.run (crossed.take 4)).parentOf (moveNode 2) = some (moveNode 0) ∧
      (new.run crossed).parentOf (moveNode 2) = some (moveNode 1) ∧
      (new.run (crossed.take 4)).parentOf =
        foldMoves (parentIn (new.run (crossed.take 4)).base) (new.run (crossed.take 4)).entries := by
  have hDistinct : DistinctStamps crossed := by
    intro e e' he he' hStamp
    simp only [crossed, List.mem_cons, reduceCtorEq, MoveEvent.apply.injEq, List.not_mem_nil,
      or_false, false_or] at he he'
    obtain rfl | rfl := he
    · obtain rfl | rfl := he'
      · rfl
      · exact absurd hStamp (by decide)
    · obtain rfl | rfl := he'
      · exact absurd hStamp (by decide)
      · rfl
  have hFirst : new.BasesFirst crossed := by
    have hUnmoved : ∀ (base : Parents) x, ¬Reached base [] x := by
      intro base x hx
      induction hx with
      | logged h => cases h
      | linked _ _ ih => exact ih
    refine ⟨.inr (hUnmoved _ _), .inr ?_, trivial, trivial, trivial, trivial⟩
    have hNone : (new.step (.setBase (moveNode 1) (moveNode 0))).entries = [] := by
      decide +kernel
    rw [hNone]
    exact hUnmoved _ _
  have hAcyclic : Acyclic (parentIn (new.run crossed).base) := by
    refine acyclic_of_measure (fun x => if x = moveNode 0 then 0 else 1) fun x y hxy => ?_
    have hLinks : parentIn (new.run crossed).base x = some y := hxy
    simp only [run, crossed, List.foldl_cons, List.foldl_nil, step, apply_base, remove_base,
      setBase_base, parentIn, new, ExtTreeMap.getElem?_empty, Option.none_or] at hLinks
    split at hLinks
    next hTwo =>
      obtain rfl := Option.some.inj hLinks
      rw [hTwo]
      decide
    next =>
      split at hLinks
      next hOne =>
        obtain rfl := Option.some.inj hLinks
        rw [hOne]
        decide
      next => cases hLinks
  obtain ⟨-, -, hFold, -, -⟩ :=
    run_eq_fold hDistinct hFirst hAcyclic (List.take_append_drop 4 crossed).symm
  exact ⟨by decide +kernel, by decide +kernel, hFold⟩

/-- A link is set after a move that does not name its node, but walks through it. -/
private def lateLink : List MoveEvent :=
  [.setBase (moveNode 2) (moveNode 3), .apply ⟨moveStamp 1, moveNode 1, moveNode 2⟩,
    .setBase (moveNode 3) (moveNode 1)]

/-- The move was taken before the link was there and is not reconsidered; and links that close a
cycle by themselves are kept as they are. -/
theorem late_link_closes_cycle :
    (∀ e ∈ (new.run (lateLink.take 2)).entries, e.child ≠ moveNode 3 ∧ e.parent ≠ moveNode 3) ∧
      Above (new.run lateLink).parentOf (moveNode 1) (moveNode 1) ∧
      (new.run lateLink).parentOf ≠
        foldMoves (parentIn (new.run lateLink).base) (new.run lateLink).entries ∧
      Above (new.run [.setBase (moveNode 1) (moveNode 2), .setBase (moveNode 2)
        (moveNode 1)]).parentOf (moveNode 1) (moveNode 1) := by
  refine ⟨by decide +kernel, ?_, ?_, ?_⟩
  · apply above_of_ascend (n := 2)
    decide +kernel
  · intro hFold
    have hEntries : (new.run lateLink).entries = [⟨moveStamp 1, moveNode 1, moveNode 2⟩] := by
      decide +kernel
    have hCycle : Above (Function.update (parentIn (new.run lateLink).base) (moveNode 1)
        (some (moveNode 2))) (moveNode 1) (moveNode 1) := by
      apply above_of_ascend (n := 2)
      decide +kernel
    have hParent := congrFun hFold (moveNode 1)
    rw [hEntries, foldMoves, List.foldl_cons, List.foldl_nil, hangMove, if_pos hCycle] at hParent
    exact absurd hParent (by decide +kernel)
  · apply above_of_ascend (n := 1)
    decide +kernel

end Witness

end TreeMoves

end CrdtSync
