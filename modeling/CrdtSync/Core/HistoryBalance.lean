import CrdtSync.Core.Undo

/-!
# Balance of the undo history

A replay takes an intention off one stack and closes its mirror on the other, so the stacks of an
origin move by its own undos, redos and fresh edits only. Undone intentions come back by as many
redos, last undone first.
-/

namespace CrdtSync

open Relation (ReflTransGen)

/-- The stack a replay off this one lands on. -/
def Landing.other : Landing → Landing
  | .undo => .redo
  | .redo => .undo

namespace History

variable {α : Type} {h h' h'' : History α} {o : Bytes} {landing : Landing}

/-- The stacks and what selects them are the same; what is being recorded may differ. -/
structure SameStacks (h h' : History α) : Prop where
  origin : h'.origin = h.origin
  landing : h'.landing = h.landing
  replaying : h'.replaying = h.replaying
  undo : h'.undo = h.undo
  redo : h'.redo = h.redo

theorem SameStacks.refl (h : History α) : SameStacks h h := ⟨rfl, rfl, rfl, rfl, rfl⟩

theorem SameStacks.trans (hSame : SameStacks h h') (hSame' : SameStacks h' h'') : SameStacks h h'' :=
  ⟨hSame'.origin.trans hSame.origin, hSame'.landing.trans hSame.landing,
    hSame'.replaying.trans hSame.replaying, hSame'.undo.trans hSame.undo,
    hSame'.redo.trans hSame.redo⟩

theorem SameStacks.stack (hSame : SameStacks h h') (landing : Landing) :
    h'.stack landing = h.stack landing := by
  cases landing with
  | undo => exact hSame.undo
  | redo => exact hSame.redo

theorem sameStacks_foldl_push (h : History α) (steps : List α) :
    SameStacks h (steps.foldl push h) ∧ (steps.foldl push h).opened = h.opened ++ steps := by
  induction steps generalizing h with
  | nil => exact ⟨.refl h, (List.append_nil _).symm⟩
  | cons step steps ih =>
    obtain ⟨hSame, hOpened⟩ := ih (h.push step)
    have hPush : SameStacks h (h.push step) := ⟨rfl, rfl, rfl, rfl, rfl⟩
    refine ⟨hPush.trans hSame, ?_⟩
    rw [List.foldl_cons, hOpened]
    exact List.append_assoc ..

theorem sameStacks_substitute (h : History α) (seq : ElementId) (was now : Stamp) :
    SameStacks h (h.substitute seq was now) := by
  unfold substitute
  split
  · exact ⟨rfl, rfl, rfl, rfl, rfl⟩
  · exact .refl h

theorem sameStacks_substituteElement (h : History α) (was now : ElementId) :
    SameStacks h (h.substituteElement was now) := by
  unfold substituteElement
  split
  · exact ⟨rfl, rfl, rfl, rfl, rfl⟩
  · exact .refl h

/-- What emitting leaves of the history: only the intention in progress grows. -/
structure Records (h h' : History α) : Prop where
  same : SameStacks h h'
  revived : h'.revived = h.revived
  revivedElements : h'.revivedElements = h.revivedElements
  opened : h.origin = none → h'.opened = h.opened

theorem Records.trans (hRecords : Records h h') (hRecords' : Records h' h'') :
    Records h h'' where
  same := hRecords.same.trans hRecords'.same
  revived := hRecords'.revived.trans hRecords.revived
  revivedElements := hRecords'.revivedElements.trans hRecords.revivedElements
  opened hNone := (hRecords'.opened (hRecords.same.origin.trans hNone)).trans (hRecords.opened hNone)

theorem foldl_push_maps (h : History α) (steps : List α) :
    (steps.foldl push h).revived = h.revived ∧
      (steps.foldl push h).revivedElements = h.revivedElements := by
  induction steps generalizing h with
  | nil => exact ⟨rfl, rfl⟩
  | cons step steps ih => exact ih (h.push step)

theorem sameStacks_prune (h : History α) :
    SameStacks h h.prune ∧ h.prune.opened = h.opened := by
  unfold prune
  split
  · exact ⟨⟨rfl, rfl, rfl, rfl, rfl⟩, rfl⟩
  · exact ⟨.refl h, rfl⟩

/-- The intentions of an origin on a stack, newest first. -/
def own (h : History α) (o : Bytes) (landing : Landing) : List (Intention α) :=
  (h.stack landing).filter fun i => i.origin = o

theorem SameStacks.own (hSame : SameStacks h h') (o : Bytes) (landing : Landing) :
    h'.own o landing = h.own o landing := by
  rw [History.own, hSame.stack]
  rfl

/-! ### Taking -/

theorem stack_setStack (h : History α) (landing : Landing) (stack : List (Intention α)) :
    (h.setStack landing stack).stack landing = stack ∧
      ∀ other ≠ landing, (h.setStack landing stack).stack other = h.stack other := by
  cases landing with
  | undo =>
    refine ⟨rfl, fun other hNe => ?_⟩
    cases other with
    | undo => exact absurd rfl hNe
    | redo => rfl
  | redo =>
    refine ⟨rfl, fun other hNe => ?_⟩
    cases other with
    | undo => rfl
    | redo => exact absurd rfl hNe

theorem filter_eraseP (stack : List (Intention α)) (o : Bytes) :
    (stack.find? fun i => i.origin = o) = (stack.filter fun i => i.origin = o).head? ∧
      ∀ other, (stack.eraseP fun i => i.origin = o).filter (fun i => i.origin = other) =
        if other = o then (stack.filter fun i => i.origin = o).tail
        else stack.filter fun i => i.origin = other := by
  induction stack with
  | nil => exact ⟨rfl, fun other => by split <;> rfl⟩
  | cons i stack ih =>
    by_cases hOwn : i.origin = o
    · refine ⟨?_, fun other => ?_⟩
      · simp [hOwn]
      · rw [List.eraseP_cons_of_pos (by simpa using hOwn)]
        split
        next hSame => simp [hSame, hOwn]
        next hOther => simp [hOwn, Ne.symm hOther]
    · refine ⟨?_, fun other => ?_⟩
      · simp only [List.find?_cons, hOwn, decide_false, List.filter_cons, Bool.false_eq_true, if_false]
        exact ih.1
      · rw [List.eraseP_cons_of_neg (by simpa using hOwn)]
        by_cases hSame : other = o
        · have hRest := ih.2 o
          rw [if_pos rfl] at hRest
          rw [if_pos hSame, hSame]
          simp [hOwn, hRest]
        · have hRest := ih.2 other
          rw [if_neg hSame] at hRest
          rw [if_neg hSame, List.filter_cons, List.filter_cons, hRest]

/-- What taking an intention does: it is the newest of its origin, and nothing else moves. -/
structure Takes (h : History α) (o : Bytes) (landing : Landing) (i : Intention α) (h' : History α) :
    Prop where
  own : h.own o landing = i :: h'.own o landing
  others : ∀ o' landing', o' ≠ o ∨ landing' ≠ landing → h'.own o' landing' = h.own o' landing'
  kept : h'.origin = h.origin ∧ h'.landing = h.landing ∧ h'.replaying = h.replaying ∧
    h'.opened = h.opened ∧ h'.revived = h.revived ∧ h'.revivedElements = h.revivedElements
  subset : ∀ i ∈ h'.undo ++ h'.redo, i ∈ h.undo ++ h.redo

theorem take_eq_none : h.take o landing = none ↔ h.own o landing = [] := by
  rw [take, Option.map_eq_none_iff, (filter_eraseP _ o).1, List.head?_eq_none_iff]
  rfl

theorem take_spec {i : Intention α} (hTake : h.take o landing = some (i, h')) :
    h.Takes o landing i h' := by
  obtain ⟨found, hFound, hPair⟩ := Option.map_eq_some_iff.mp hTake
  obtain ⟨rfl, rfl⟩ := Prod.mk.inj hPair
  obtain ⟨hFind, hErase⟩ := filter_eraseP (h.stack landing) o
  obtain ⟨hAt, hElse⟩ := stack_setStack h landing ((h.stack landing).eraseP fun i => i.origin = o)
  have hOwn := hErase o
  rw [if_pos rfl] at hOwn
  refine ⟨?_, fun o' landing' hOther => ?_, ?_, ?_⟩
  · rw [hFind] at hFound
    rw [History.own, History.own, hAt, hOwn]
    exact List.eq_cons_of_mem_head? hFound
  · by_cases hLanding : landing' = landing
    · have hNe := hOther.resolve_right (not_not.mpr hLanding)
      have hRest := hErase o'
      rw [if_neg hNe] at hRest
      rw [hLanding, History.own, hAt, hRest]
      rfl
    · rw [History.own, hElse landing' hLanding]
      rfl
  · cases landing <;> exact ⟨rfl, rfl, rfl, rfl, rfl, rfl⟩
  · intro i hIn
    cases landing with
    | undo =>
      rcases List.mem_append.mp hIn with hUndo | hRedo
      · exact List.mem_append_left _ (List.mem_of_mem_eraseP hUndo)
      · exact List.mem_append_right _ hRedo
    | redo =>
      rcases List.mem_append.mp hIn with hUndo | hRedo
      · exact List.mem_append_left _ hUndo
      · exact List.mem_append_right _ (List.mem_of_mem_eraseP hRedo)

/-! ### Closing -/

def closing (h : History α) (atomic : Bool) : Intention α := ⟨h.origin.getD [], h.opened, atomic⟩

theorem close_replaying (hReplaying : h.replaying = true) (atomic : Bool) :
    (h.close atomic).stack h.landing = h.closing atomic :: h.stack h.landing ∧
      (h.close atomic).stack h.landing.other = h.stack h.landing.other ∧
      (h.close atomic).opened = [] ∧ (h.close atomic).revived = h.revived ∧
        (h.close atomic).revivedElements = h.revivedElements := by
  unfold close
  rw [hReplaying, Bool.not_true, Bool.and_false, if_neg Bool.false_ne_true]
  dsimp only
  cases hLanding : h.landing with
  | undo => exact ⟨rfl, rfl, rfl, rfl, rfl⟩
  | redo => exact ⟨rfl, rfl, rfl, rfl, rfl⟩

/-- Outside a replay edits land on the undo stack, and nothing is recorded without an origin. -/
structure Settled (h : History α) : Prop where
  landing : h.landing = .undo
  replaying : h.replaying = false
  recorded : h.origin = none → h.opened = []

/-- A fresh intention lands on the undo stack of its origin and drops that origin's redo future. -/
theorem Settled.close (hSettled : h.Settled) (atomic : Bool) :
    (h.close atomic).Settled ∧ (h.close atomic).opened = [] ∧
    (h.close atomic).origin = h.origin ∧ (h.close atomic).revived = h.revived ∧
    (h.close atomic).revivedElements = h.revivedElements ∧
    (h.opened = [] → h.close atomic = h) ∧
    ∀ o, h.opened ≠ [] →
      (h.origin = some o → (h.close atomic).own o .undo = ⟨o, h.opened, atomic⟩ :: h.own o .undo ∧
        (h.close atomic).own o .redo = []) ∧
      (h.origin ≠ some o → ∀ landing, (h.close atomic).own o landing = h.own o landing) := by
  obtain ⟨hLanding, hReplaying, hRecorded⟩ := hSettled
  by_cases hEmpty : h.opened = []
  · have hSame : h.close atomic = h := by
      unfold History.close
      rw [hEmpty, hReplaying]
      rfl
    rw [hSame]
    exact ⟨⟨hLanding, hReplaying, hRecorded⟩, hEmpty, rfl, rfl, rfl, fun _ => rfl,
      fun o hOpened => absurd hEmpty hOpened⟩
  · obtain ⟨o, hOrigin⟩ := Option.ne_none_iff_exists'.mp fun hNone => hEmpty (hRecorded hNone)
    have hClosed : h.close atomic = { h with
        opened := [], redo := h.redo.filter (fun i => i.origin ≠ o)
        undo := ⟨o, h.opened, atomic⟩ :: h.undo } := by
      unfold History.close
      have hSome : h.opened.isEmpty = false := by simpa using hEmpty
      rw [hSome, Bool.false_and, if_neg Bool.false_ne_true]
      dsimp only
      rw [hLanding, hReplaying, hOrigin]
      rfl
    rw [hClosed]
    refine ⟨⟨hLanding, hReplaying, fun _ => rfl⟩, rfl, rfl, rfl, rfl, fun h => absurd h hEmpty,
      fun o' _ => ⟨fun hSame => ?_, fun hOther landing => ?_⟩⟩
    · obtain rfl := Option.some.inj (hOrigin.symm.trans hSame)
      constructor
      · simp [own, stack]
      · simp [own, stack]
    · have hNe : o ≠ o' := fun hSame => hOther (hSame ▸ hOrigin)
      cases landing with
      | undo => simp [own, stack, hNe]
      | redo =>
        simp only [own, stack, List.filter_filter]
        refine List.filter_congr fun i _ => ?_
        by_cases hOwn : i.origin = o'
        · simp [hOwn, hNe.symm]
        · simp [hOwn]

/-- What a fresh edit may do to the stacks of an origin: nothing, or, while the origin is recorded,
push an intention and drop the redo future. -/
def Advances (h h' : History α) (o : Bytes) : Prop :=
  (∀ landing, h'.own o landing = h.own o landing) ∨
    h.origin = some o ∧ ∃ i, h'.own o .undo = i :: h.own o .undo ∧ h'.own o .redo = []

theorem Settled.advances_close (hSettled : h.Settled) (atomic : Bool) (o : Bytes) :
    h.Advances (h.close atomic) o := by
  obtain ⟨-, -, -, -, -, hSame, hPushed⟩ := hSettled.close atomic
  by_cases hEmpty : h.opened = []
  · rw [hSame hEmpty]
    exact .inl fun _ => rfl
  · by_cases hOrigin : h.origin = some o
    · exact .inr ⟨hOrigin, _, (hPushed o hEmpty).1 hOrigin⟩
    · exact .inl ((hPushed o hEmpty).2 hOrigin)

theorem Advances.apart (hAdvances : h.Advances h' o) (hOther : h.origin ≠ some o)
    (landing : Landing) : h'.own o landing = h.own o landing := by
  rcases hAdvances with hSame | ⟨hOrigin, -⟩
  · exact hSame landing
  · exact absurd hOrigin hOther

/-- Only the stacks and the recording origin matter. -/
theorem Advances.congr {k k' : History α} (hAdvances : h.Advances h' o) (hOrigin : k.origin = h.origin)
    (hFrom : ∀ landing, k.own o landing = h.own o landing)
    (hTo : ∀ landing, k'.own o landing = h'.own o landing) : k.Advances k' o := by
  rcases hAdvances with hSame | ⟨hOwn, i, hUndo, hRedo⟩
  · exact .inl fun landing => ((hTo landing).trans (hSame landing)).trans (hFrom landing).symm
  · refine .inr ⟨hOrigin.trans hOwn, i, ?_, (hTo .redo).trans hRedo⟩
    rw [hTo, hUndo, hFrom]

theorem own_congr (hUndo : h'.undo = h.undo) (hRedo : h'.redo = h.redo) (o : Bytes)
    (landing : Landing) : h'.own o landing = h.own o landing := by
  cases landing with
  | undo => rw [own, own, stack, stack, hUndo]
  | redo => rw [own, own, stack, stack, hRedo]

theorem Settled.congr (hSettled : h.Settled) (hSame : SameStacks h h')
    (hOpened : h.origin = none → h'.opened = h.opened) : h'.Settled :=
  ⟨hSame.landing.trans hSettled.landing, hSame.replaying.trans hSettled.replaying, fun hNone =>
    (hOpened (hSame.origin.symm.trans hNone)).trans
      (hSettled.recorded (hSame.origin.symm.trans hNone))⟩

end History

namespace Tracked

open History

/-- A reveal is the server's to make; no replica authors one. -/
def Authored (kind : OpKind) : Prop := ∀ node tag, kind ≠ .xmlReveal node tag

section Emissions

variable [IdBytes] [Zones] {r r' r'' : Tracked}

/-- Reached by emitting ops of kinds in `K` and nothing else. -/
def Emitted (K : OpKind → Prop) (r r' : Tracked) : Prop :=
  ReflTransGen (fun r r' => ∃ target kind, K kind ∧ r' = r.emit target kind) r r'

namespace Emitted

variable {K : OpKind → Prop}

theorem refl (r : Tracked) : Emitted K r r := ReflTransGen.refl

theorem trans (h : Emitted K r r') (h' : Emitted K r' r'') : Emitted K r r'' := ReflTransGen.trans h h'

theorem emit (r : Tracked) (target : ElementId) {kind : OpKind} (hKind : K kind) :
    Emitted K r (r.emit target kind) :=
  .single ⟨target, kind, hKind, rfl⟩

theorem stamped (r : Tracked) (target : ElementId) {kind : OpKind} (hKind : K kind) :
    Emitted K r (r.emitStamped target kind).2 := emit r target hKind

/-- What one emission keeps, any number of them keep. -/
theorem induct {P : Tracked → Prop} (h : Emitted K r r')
    (hStep : ∀ r target kind, K kind → P r → P (r.emit target kind)) (hr : P r) : P r' := by
  induction h with
  | refl => exact hr
  | tail _ hEmit ih =>
    obtain ⟨target, kind, hKind, rfl⟩ := hEmit
    exact hStep _ target kind hKind ih

theorem reinstate (r : Tracked) {chain : List (ElementId × OpKind)}
    (hChain : ∀ link ∈ chain, K link.2) : Emitted K r (r.reinstate chain) := by
  induction chain generalizing r with
  | nil => exact refl r
  | cons link chain ih =>
    unfold Tracked.reinstate
    split
    · exact (emit _ _ (hChain link List.mem_cons_self)).trans
        (ih _ fun other hOther => hChain other (List.mem_cons_of_mem _ hOther))
    · exact refl r

theorem emitAll (r : Tracked) {edits : List (ElementId × OpKind)} (hEdits : ∀ e ∈ edits, K e.2) :
    Emitted K r (r.emitAll edits) := by
  unfold Tracked.emitAll
  induction edits generalizing r with
  | nil => exact refl r
  | cons e edits ih =>
    exact (emit _ _ (hEdits e List.mem_cons_self)).trans
      (ih _ fun other hOther => hEdits other (List.mem_cons_of_mem _ hOther))

/-! What is rebuilt is emitted, and a reveal is never part of it. -/

theorem fillCounter (r : Tracked) (map : ElementId) (key : Bytes) (negative : Bool) (left : Nat) :
    Emitted Authored r (r.fillCounter map key negative left) := by
  rw [fillCounter_eq_emitAll]
  refine emitAll _ fun e hEdit => ?_
  obtain ⟨kind, hKind, rfl⟩ := List.mem_map.mp hEdit
  obtain ⟨deltas, hDeltas, -⟩ := fillFrom_deltas key negative left
  rw [hDeltas] at hKind
  obtain ⟨delta, -, rfl⟩ := List.mem_map.mp hKind
  cases delta <;> nofun

theorem fillList (r : Tracked) (list : ElementId) (index : Nat) (values : List Scalar) :
    Emitted Authored r (r.fillList list index values) := by
  induction values generalizing r index with
  | nil => exact refl r
  | cons value values ih =>
    unfold Tracked.fillList
    split
    · exact refl r
    · exact (emit _ _ nofun).trans (ih _ _)

theorem fillText (r : Tracked) (text : ElementId) (s : List Char) :
    Emitted Authored r (r.fillText text s) := by
  unfold Tracked.fillText
  split
  · exact refl r
  · split
    · exact refl r
    · exact emit _ _ nofun

mutual

theorem reviveNode (r : Tracked) (list : ElementId) (anchor : Anchor) (node : Snap) :
    Emitted Authored r (r.reviveNode list anchor node).2 := by
  match node with
  | .text s =>
    have hMinted : Emitted Authored r (r.emitStamped list (.xmlInsertChild none anchor)).2 :=
      stamped r list nofun
    unfold Tracked.reviveNode
    split
    next hNone => rwa [hNone] at hMinted
    next stamp r' hSome =>
      rw [hSome] at hMinted
      exact hMinted.trans (fillText ..)
  | .xmlElement tag attrs children =>
    have hMinted : Emitted Authored r (r.emitStamped list (.xmlInsertChild (some tag) anchor)).2 :=
      stamped r list nofun
    unfold Tracked.reviveNode
    split
    next hNone => rwa [hNone] at hMinted
    next stamp r' hSome =>
      rw [hSome] at hMinted
      exact (hMinted.trans (fillSlots r' _ attrs)).trans (fillChildren _ _ 0 children)
  | .scalar _ | .register _ | .counter _ | .map _ | .list _ | .xmlFragment _ => exact refl r

theorem fillSlots (r : Tracked) (map : ElementId) (slots : List (Bytes × Snap)) :
    Emitted Authored r (r.fillSlots map slots) := by
  match slots with
  | [] => exact refl r
  | (key, snap) :: slots =>
    unfold Tracked.fillSlots
    exact (fillSlot r map key snap).trans (fillSlots _ map slots)

theorem fillSlot (r : Tracked) (map : ElementId) (key : Bytes) (snap : Snap) :
    Emitted Authored r (r.fillSlot map key snap) := by
  match snap with
  | .scalar value => exact emit _ _ nofun
  | .register value => exact emit _ _ nofun
  | .counter total => exact fillCounter ..
  | .map slots =>
    unfold Tracked.fillSlot
    exact (emit _ _ nofun).trans (fillSlots _ _ slots)
  | .list values =>
    unfold Tracked.fillSlot
    exact (emit _ _ nofun).trans (fillList ..)
  | .text s =>
    unfold Tracked.fillSlot
    exact (emit _ _ nofun).trans (fillText ..)
  | .xmlElement tag attrs children =>
    unfold Tracked.fillSlot
    exact ((emit _ _ nofun).trans (fillSlots _ _ attrs)).trans (fillChildren _ _ 0 children)
  | .xmlFragment children =>
    unfold Tracked.fillSlot
    exact (emit _ _ nofun).trans (fillChildren _ _ 0 children)

theorem fillChildren (r : Tracked) (list : ElementId) (index : Nat) (children : List Snap) :
    Emitted Authored r (r.fillChildren list index children) := by
  match children with
  | [] => exact refl r
  | child :: children =>
    unfold Tracked.fillChildren
    split
    · exact refl r
    · exact (reviveNode _ list _ child).trans (fillChildren _ list _ children)

end

theorem reviveRanged (r : Tracked) (start stop : RangeAnchor) (name : Option Bytes) (payload : Snap) :
    Emitted Authored r (r.reviveRanged start stop name payload).2 := by
  unfold Tracked.reviveRanged
  dsimp only
  split
  · exact refl r
  next init _ =>
    have hMinted : Emitted Authored r
        (r.emitStamped ROOT_ID (.rangedCreate start stop init name)).2 := stamped r ROOT_ID nofun
    split
    next hNone => rwa [hNone] at hMinted
    next stamp r' hSome =>
      rw [hSome] at hMinted
      refine hMinted.trans ?_
      split
      · exact fillSlots ..
      · exact fillList ..
      · exact fillText ..
      · exact refl _

end Emitted

theorem records_emit (r : Tracked) (target : ElementId) (kind : OpKind) :
    Records r.history (r.emit target kind).history := by
  have hRefl : Records r.history r.history := ⟨.refl _, rfl, rfl, fun _ => rfl⟩
  unfold emit emitStamped
  dsimp only
  split
  · exact hRefl
  next op _ =>
    dsimp only
    split
    next hRecording =>
      obtain ⟨hStacks, -⟩ :=
        sameStacks_foldl_push r.history (r.doc.content.inverse target kind op.stamp)
      obtain ⟨hRevived, hElements⟩ :=
        foldl_push_maps r.history (r.doc.content.inverse target kind op.stamp)
      refine ⟨hStacks, hRevived, hElements, fun hNone => ?_⟩
      rw [recording, hNone] at hRecording
      cases hRecording
    · exact hRefl

theorem Emitted.records {K : OpKind → Prop} (h : Emitted K r r') : Records r.history r'.history :=
  h.induct (P := fun r' => Records r.history r'.history)
    (fun r target kind _ hRecords => hRecords.trans (records_emit r target kind))
    ⟨.refl _, rfl, rfl, fun _ => rfl⟩

/-- Emitting neither opens nor closes an intention. -/
theorem Emitted.intention {K : OpKind → Prop} (h : Emitted K r r') :
    r'.doc.atomic = r.doc.atomic ∧ r'.doc.depth = r.doc.depth := by
  refine h.induct (P := fun r' => r'.doc.atomic = r.doc.atomic ∧ r'.doc.depth = r.doc.depth)
    (fun r₁ target kind _ ih => ?_) ⟨rfl, rfl⟩
  have hDoc : (r₁.emit target kind).doc = r₁.doc.emit (r₁.edit target kind) := by
    unfold Tracked.emit emitStamped
    dsimp only
    split <;> rfl
  have hDepth : (r₁.doc.emit (r₁.edit target kind)).depth = r₁.doc.depth := by
    cases hEmitted : r₁.doc.emitted (r₁.edit target kind) with
    | none => rw [Document.emit_of_emitted_eq_none hEmitted]
    | some op => exact (Document.emits_of_emitted hEmitted).depth
  rw [hDoc]
  exact ⟨(Document.emit_atomic ..).trans ih.1, hDepth.trans ih.2⟩

/-! ### Replays -/

theorem sameStacks_emitInverse (r : Tracked) (step : Inverse) :
    SameStacks r.history (r.emitInverse step).history := by
  have hStamped {target : ElementId} {kind : OpKind} {minted : Option Stamp × Tracked}
      (hMinted : r.emitStamped target kind = minted) : SameStacks r.history minted.2.history := by
    have hRecords : Records r.history (r.emitStamped target kind).2.history :=
      (Emitted.stamped (K := fun _ => True) r target trivial).records
    rw [hMinted] at hRecords
    exact hRecords.same
  cases step with
  | op target kind => exact (records_emit ..).same
  | regrant target subject grant effect scope grantor was =>
    simp only [emitInverse]
    split
    next hNone => exact hStamped hNone
    next hSome => exact (hStamped hSome).trans (sameStacks_substituteElement ..)
  | reviveItem list anchor value was =>
    simp only [emitInverse]
    split
    next hNone => exact hStamped hNone
    next hSome => exact (hStamped hSome).trans (sameStacks_substitute ..)
  | reviveRun text anchor s was =>
    simp only [emitInverse]
    split
    next hNone => exact hStamped hNone
    next now r' hSome =>
      have hFold (pairs : List (Stamp × Nat)) (r' : Tracked) : SameStacks r'.history
          (pairs.foldl (fun r (pair : Stamp × Nat) =>
            r.substitute text pair.1 (now.runMember pair.2)) r').history := by
        induction pairs generalizing r' with
        | nil => exact .refl _
        | cons pair pairs ih =>
          exact (sameStacks_substitute ..).trans (ih (r'.substitute text pair.1 (now.runMember pair.2)))
      exact (hStamped hSome).trans (hFold _ r')
  | reviveNode list anchor node was wasNode =>
    have hRevived := (Emitted.reviveNode r list anchor node).records.same
    simp only [emitInverse]
    split
    next hNone =>
      rw [hNone] at hRevived
      exact hRevived
    next now r' hSome =>
      rw [hSome] at hRevived
      have hSeq := hRevived.trans (sameStacks_substitute r'.history list was now)
      split
      · exact hSeq
      · exact ((hSeq.trans (sameStacks_substituteElement ..)).trans
          (sameStacks_substituteElement ..)).trans (sameStacks_substituteElement ..)
  | ranged start stop name payload was =>
    have hRevived := (Emitted.reviveRanged r start stop name payload).records.same
    simp only [emitInverse]
    split
    next hNone =>
      rw [hNone] at hRevived
      exact hRevived
    next now r' hSome =>
      rw [hSome] at hRevived
      exact (((hRevived.trans (sameStacks_substituteElement ..)).trans
        (sameStacks_substituteElement ..)).trans (sameStacks_substituteElement ..)).trans
          (sameStacks_substituteElement ..)

theorem sameStacks_emitPlan (r : Tracked) (steps : List Inverse) :
    SameStacks r.history (r.emitPlan steps).history := by
  have hStep (installers : Registry (ElementId × OpKind)) (r : Tracked) (step : Inverse) :
      SameStacks r.history (replayStep installers r step).history := by
    have hReinstated : SameStacks r.history (if r.doc.content.resolvable
        (r.history.currentElement (Content.stepTarget step)) then r else r.reinstate
          (r.doc.content.reinstatements (r.history.currentElement (Content.stepTarget step))
            installers)).history := by
      split
      · exact .refl _
      · exact (Emitted.reinstate (K := fun _ => True) r fun _ _ => trivial).records.same
    unfold replayStep
    dsimp only
    generalize (if r.doc.content.resolvable (r.history.currentElement (Content.stepTarget step)) then r
      else r.reinstate (r.doc.content.reinstatements
        (r.history.currentElement (Content.stepTarget step)) installers)) = r₁ at hReinstated ⊢
    split
    · exact hReinstated.trans (sameStacks_emitInverse ..)
    · exact hReinstated
  have hFold (installers : Registry (ElementId × OpKind)) (plan : List Inverse) (r : Tracked) :
      SameStacks r.history (plan.foldl (replayStep installers) r).history := by
    induction plan generalizing r with
    | nil => exact .refl _
    | cons step plan ih => exact (hStep installers r step).trans (ih _)
  exact hFold _ _ r

variable [TxDigest]

/-- A replay's history is that of its plan, the mirror closed and the recording context restored. -/
theorem replay_history (r : Tracked) (i : Intention Inverse) (landing : Landing) :
    (r.replay i landing).2.history =
      ((((r.openReplay i landing).emitPlan i.steps).history.close i.atomic).endReplay
        (r.history.origin, r.history.landing)).prune := by
  unfold replay
  dsimp only
  cases i.atomic with
  | false => rfl
  | true => rfl

/-- The intention a replay closes: what its own ops recorded, tagged as the replayed one was. -/
def mirrorOf (r : Tracked) (i : Intention Inverse) (landing : Landing) : Intention Inverse :=
  ⟨i.origin, ((r.openReplay i landing).emitPlan i.steps).history.opened, i.atomic⟩

theorem replay_spec (r : Tracked) (i : Intention Inverse) (landing : Landing) :
    (r.replay i landing).2.history.stack landing =
      r.mirrorOf i landing :: r.history.stack landing ∧
    (r.replay i landing).2.history.stack landing.other = r.history.stack landing.other ∧
    (r.replay i landing).2.history.origin = r.history.origin ∧
    (r.replay i landing).2.history.landing = r.history.landing ∧
    (r.replay i landing).2.history.replaying = false ∧
    (r.replay i landing).2.history.opened = [] := by
  have hPlan := sameStacks_emitPlan (r.openReplay i landing) i.steps
  generalize hEmitted : (r.openReplay i landing).emitPlan i.steps = emitted at hPlan
  have hLanding : emitted.history.landing = landing := hPlan.landing
  have hClosed := close_replaying (h := emitted.history) (hPlan.replaying) i.atomic
  rw [hLanding] at hClosed
  obtain ⟨hAt, hOther, hOpened, -, -⟩ := hClosed
  obtain ⟨hPruned, hLeft⟩ := sameStacks_prune ((emitted.history.close i.atomic).endReplay
    (r.history.origin, r.history.landing))
  have hStacks (landing : Landing) : ((emitted.history.close i.atomic).endReplay
      (r.history.origin, r.history.landing)).stack landing =
        (emitted.history.close i.atomic).stack landing := by cases landing <;> rfl
  have hMirror : emitted.history.closing i.atomic = r.mirrorOf i landing := by
    rw [closing, hPlan.origin, mirrorOf, hEmitted]
    rfl
  have hBegun (other : Landing) :
      (r.openReplay i landing).history.stack other = r.history.stack other := by
    cases other <;> rfl
  rw [replay_history, hEmitted]
  refine ⟨?_, ?_, hPruned.origin, hPruned.landing, hPruned.replaying,
    hLeft.trans hOpened⟩
  · rw [hPruned.stack, hStacks, hAt, hMirror, hPlan.stack, hBegun]
  · rw [hPruned.stack, hStacks, hOther, hPlan.stack, hBegun]

/-- Undo or redo, by the stack it takes from. -/
def turn (r : Tracked) (o : Bytes) : Landing → Option (List Op × Tracked)
  | .undo => r.undo o
  | .redo => r.redo o

theorem turn_eq (r : Tracked) (o : Bytes) (landing : Landing) : r.turn o landing =
    if r.doc.recordingIntention then none
    else (r.history.take o landing).map fun (i, history) => { r with history }.replay i
        landing.other := by
  cases landing <;> rfl

/-- One undo or redo: the newest intention `i` of the origin goes over to the other stack as its
mirror `m`, and no other origin's stacks move. -/
structure Turns (r : Tracked) (o : Bytes) (landing : Landing) (i m : Intention Inverse) (r' : Tracked) :
    Prop where
  taken : r.history.own o landing = i :: r'.history.own o landing
  landed : r'.history.own o landing.other = m :: r.history.own o landing.other
  replayed : ∃ history, r.history.take o landing = some (i, history) ∧
    m = { r with history }.mirrorOf i landing.other ∧ r' = ({ r with history }.replay i landing.other).2
  others : ∀ o' ≠ o, ∀ landing, r'.history.own o' landing = r.history.own o' landing
  context : r'.history.origin = r.history.origin ∧ r'.history.landing = r.history.landing ∧
    r'.history.replaying = false ∧ r'.history.opened = []

theorem turns_of_turn {o : Bytes} {landing : Landing} {ops : List Op}
    (hTurn : r.turn o landing = some (ops, r')) : ∃ i m, r.Turns o landing i m r' := by
  rw [turn_eq] at hTurn
  split at hTurn
  · cases hTurn
  obtain ⟨⟨i, history⟩, hTake, hReplayed⟩ := Option.map_eq_some_iff.mp hTurn
  dsimp only at hReplayed
  have hTakes := take_spec hTake
  have hOrigin : i.origin = o := by
    have hIn : i ∈ r.history.own o landing := hTakes.own ▸ List.mem_cons_self
    simpa using List.of_mem_filter hIn
  obtain ⟨hLanded, hLeft, hContext⟩ := replay_spec ({ r with history } : Tracked) i landing.other
  rw [hReplayed] at hLanded hLeft hContext
  have hBack : landing.other.other = landing := by cases landing <;> rfl
  have hNe : landing.other ≠ landing := by cases landing <;> nofun
  rw [hBack] at hLeft
  have hMirror : (({ r with history } : Tracked).mirrorOf i landing.other).origin = o := hOrigin
  refine ⟨i, _, ?_, ?_, ⟨history, hTake, rfl, by rw [hReplayed]⟩, fun o' hOther other => ?_, ?_⟩
  · rw [hTakes.own, own, own, hLeft]
  · rw [own, hLanded, List.filter_cons, if_pos (by simpa using hMirror)]
    exact congrArg _ (hTakes.others o landing.other (.inr hNe))
  · have hSkip : ¬(decide ((({ r with history } : Tracked).mirrorOf i landing.other).origin = o') =
        true) := by
      simpa using fun hSame => hOther (hSame.symm.trans hMirror)
    rcases eq_or_ne other landing with rfl | hElse
    · exact (congrArg (List.filter _) hLeft).trans (hTakes.others o' other (.inl hOther))
    · obtain rfl : other = landing.other := by
        cases other <;> cases landing <;> first | rfl | exact absurd rfl hElse
      rw [own, hLanded, List.filter_cons, if_neg hSkip]
      exact hTakes.others o' landing.other (.inl hOther)
  · obtain ⟨hSame, hLanding, hReplaying, hOpened⟩ := hContext
    exact ⟨hSame.trans hTakes.kept.1, hLanding.trans hTakes.kept.2.1, hReplaying, hOpened⟩

theorem turn_eq_none {o : Bytes} {landing : Landing} : r.turn o landing = none ↔
    r.doc.recordingIntention = true ∨ r.history.own o landing = [] := by
  rw [turn_eq]
  split
  next hOpen => simp [hOpen]
  next hClosed => rw [Option.map_eq_none_iff, take_eq_none]; simp [hClosed]

/-! ### Gestures -/

/-- Between gestures nothing is left recorded but what an open intention gathers. -/
structure Settled (r : Tracked) : Prop where
  history : r.history.Settled
  idle : r.doc.recordingIntention = false → r.history.opened = []

/-- A gesture is an origin's if it is that origin's undo or redo, or made while it is recorded. -/
def Gesture.isOf (g : Gesture) (r : Tracked) (o : Bytes) : Prop :=
  match g with
  | .undo origin => origin = o
  | .redo origin => origin = o
  | _ => r.history.origin = some o

/-- Undo and redo replay what was recorded; every other gesture edits afresh, or not at all. -/
def Gesture.isFresh : Gesture → Prop
  | .undo _ | .redo _ => False
  | _ => True

omit [IdBytes] [Zones] [TxDigest] in
theorem recordingIntention_congr {d d' : Document Content} (hAtomic : d'.atomic = d.atomic)
    (hDepth : d'.depth = d.depth) : d'.recordingIntention = d.recordingIntention := by
  rw [Document.recordingIntention, hAtomic, hDepth]
  rfl

omit [IdBytes] [Zones] [TxDigest] in
/-- Closing the intention in progress leaves the history settled, whatever the document. -/
theorem Settled.close (h : r.Settled) (doc : Document Content) (atomic : Bool) :
    Settled ⟨doc, r.history.close atomic⟩ := by
  obtain ⟨hSettled, hOpened, -⟩ := h.history.close atomic
  exact ⟨hSettled, fun _ => hOpened⟩

omit [TxDigest] in
theorem Settled.transact (h : r.Settled) (edits : List (ElementId × OpKind)) :
    (r.transact edits).2.Settled ∧ ∀ o, r.history.Advances (r.transact edits).2.history o := by
  have hMade : Emitted (fun _ => True) r.openTransact (r.openTransact.emitAll edits) :=
    .emitAll _ fun _ _ => trivial
  have hRecords := hMade.records
  have hDrain := Document.settles_drainBuffer (r.openTransact.emitAll edits).doc
  have hIntention : (r.openTransact.emitAll edits).doc.drainBuffer.recordingIntention =
      r.doc.recordingIntention :=
    recordingIntention_congr (hDrain.atomic.trans hMade.intention.1)
      (hDrain.depth.trans hMade.intention.2)
  unfold Tracked.transact closeTransact
  dsimp only
  generalize r.openTransact.emitAll edits = made at hRecords hIntention ⊢
  have hMadeSettled : made.history.Settled := h.history.congr hRecords.same hRecords.opened
  have hHistory (doc : Document Content) (hDoc : doc.recordingIntention = r.doc.recordingIntention) :
      Settled ⟨doc, if doc.recordingIntention then made.history else made.history.close false⟩ ∧ ∀ o,
        r.history.Advances
          (if doc.recordingIntention then made.history else made.history.close false) o := by
    cases hOpen : doc.recordingIntention with
    | true =>
      refine ⟨⟨hMadeSettled, fun hClosed => ?_⟩, fun o => .inl (hRecords.same.own o)⟩
      rw [hOpen] at hClosed
      cases hClosed
    | false =>
      obtain ⟨hSettled, hOpened, -⟩ := hMadeSettled.close false
      exact ⟨⟨hSettled, fun _ => hOpened⟩, fun o => (hMadeSettled.advances_close false o).congr
        hRecords.same.origin.symm (fun landing => (hRecords.same.own o landing).symm) fun _ => rfl⟩
  -- Whether the ops ship now or join an open transaction, the same stacks are left.
  generalize made.doc.drainBuffer = drained at hIntention ⊢
  obtain ⟨s, refused, atomic, pending, depth⟩ := drained
  cases atomic with
  | none => exact hHistory ⟨s, refused, none, [], depth⟩ hIntention
  | some acc => exact hHistory ⟨s, refused, some (acc ++ pending), [], depth⟩ hIntention

/-- A fresh gesture drops the redo future of the recording origin at most, and pushes onto its undo
stack at most. -/
theorem Settled.fresh (h : r.Settled) {g : Gesture} (hFresh : g.isFresh) :
    (r.act g).2.Settled ∧ ∀ o, r.history.Advances (r.act g).2.history o := by
  have hQuiet (doc : Document Content) (hDoc : doc.recordingIntention = false →
      r.doc.recordingIntention = false) :
      Settled ⟨doc, r.history⟩ ∧ ∀ o, r.history.Advances r.history o :=
    ⟨⟨h.history, fun hClosed => h.idle (hDoc hClosed)⟩, fun _ => .inl fun _ => rfl⟩
  have hClose (doc : Document Content) (atomic : Bool) :
      Settled ⟨doc, r.history.close atomic⟩ ∧ ∀ o, r.history.Advances (r.history.close atomic) o :=
    ⟨h.close doc atomic, h.history.advances_close atomic⟩
  cases g with
  | setUndoOrigin origin =>
    obtain ⟨hClosed, hOpened, -⟩ := h.history.close false
    change Settled ⟨r.doc, r.history.track origin⟩ ∧ ∀ o, r.history.Advances (r.history.track origin) o
    unfold History.track
    dsimp only
    split
    · exact ⟨⟨⟨hClosed.landing, hClosed.replaying, nofun⟩, fun _ => hOpened⟩, fun o =>
        (h.history.advances_close false o).congr rfl (fun _ => rfl) (own_congr rfl rfl o)⟩
    · exact ⟨⟨⟨h.history.landing, h.history.replaying, nofun⟩, h.idle⟩,
        fun o => .inl (own_congr rfl rfl o)⟩
  | clearUndoOrigin =>
    obtain ⟨hClosed, hOpened, -⟩ := h.history.close false
    exact ⟨⟨⟨hClosed.landing, hClosed.replaying, fun _ => hOpened⟩, fun _ => hOpened⟩, fun o =>
      (h.history.advances_close false o).congr rfl (fun _ => rfl) (own_congr rfl rfl o)⟩
  | transact edits => exact h.transact edits
  | beginIntention =>
    refine hQuiet _ fun hClosed => ?_
    simp [Document.recordingIntention, Document.beginIntention] at hClosed
  | endIntention =>
    change (r.endIntention).Settled ∧ ∀ o, r.history.Advances (r.endIntention).history o
    unfold endIntention
    dsimp only
    split
    next hOpen =>
      exact ⟨⟨h.history, fun hClosed => absurd hOpen (by simp [hClosed])⟩, fun _ => .inl fun _ => rfl⟩
    · exact hClose _ false
  | beginAtomic =>
    refine hQuiet _ fun hClosed => ?_
    unfold Document.beginAtomic at hClosed
    split at hClosed
    · exact hClosed
    · simp [Document.recordingIntention] at hClosed
  | commitAtomic =>
    change r.commitAtomic.2.Settled ∧ ∀ o, r.history.Advances r.commitAtomic.2.history o
    unfold commitAtomic
    split
    · exact ⟨h, fun _ => .inl fun _ => rfl⟩
    · exact hClose _ true
  | undo _ | redo _ => exact hFresh.elim
  | apply op =>
    have hSettles := Document.settles_apply r.doc op
    exact hQuiet _ fun hClosed =>
      (recordingIntention_congr hSettles.atomic hSettles.depth).symm.trans hClosed
  | evictPartialTransactions =>
    have hSettles := Document.settles_evictPartialTransactions r.doc
    exact hQuiet _ fun hClosed =>
      (recordingIntention_congr hSettles.atomic hSettles.depth).symm.trans hClosed

theorem Turns.settled {o : Bytes} {landing : Landing} {i m : Intention Inverse}
    (hTurns : r.Turns o landing i m r') (h : r.Settled) : r'.Settled := by
  obtain ⟨hOrigin, hLanding, hReplaying, hOpened⟩ := hTurns.context
  exact ⟨⟨hLanding.trans h.history.landing, hReplaying, fun _ => hOpened⟩, fun _ => hOpened⟩

/-- The step: every gesture keeps the history settled and moves the stacks of its own origin only. -/
theorem Settled.act (h : r.Settled) (g : Gesture) : (r.act g).2.Settled ∧
    ∀ o landing, ¬g.isOf r o → (r.act g).2.history.own o landing = r.history.own o landing := by
  have hTurn (o : Bytes) (landing : Landing) :
      ((r.turn o landing).getD ([], r)).2.Settled ∧ ∀ o' landing', o ≠ o' →
        ((r.turn o landing).getD ([], r)).2.history.own o' landing' = r.history.own o' landing' := by
    cases hTurned : r.turn o landing with
    | none => exact ⟨h, fun _ _ _ => rfl⟩
    | some turned =>
      obtain ⟨i, m, hTurns⟩ := turns_of_turn hTurned
      exact ⟨hTurns.settled h, fun o' landing' hNe => hTurns.others o' hNe.symm landing'⟩
  have hFresh (hFresh : g.isFresh) (hOf : ∀ o, g.isOf r o ↔ r.history.origin = some o) :
      (r.act g).2.Settled ∧ ∀ o landing, ¬g.isOf r o →
        (r.act g).2.history.own o landing = r.history.own o landing := by
    obtain ⟨hSettled, hAdvances⟩ := h.fresh hFresh
    exact ⟨hSettled, fun o landing hOther => (hAdvances o).apart (mt (hOf o).mpr hOther) landing⟩
  cases g with
  | undo origin => exact hTurn origin .undo
  | redo origin => exact hTurn origin .redo
  | _ => exact hFresh trivial fun _ => .rfl

theorem settled_run (client : ClientId) (gestures : List Gesture) :
    ((new client).run gestures).2.Settled := by
  have hRun (r : Tracked) (h : r.Settled) : (r.run gestures).2.Settled := by
    induction gestures generalizing r with
    | nil => exact h
    | cons g gestures ih => exact ih _ (h.act g).1
  exact hRun _ ⟨⟨rfl, rfl, fun _ => rfl⟩, fun _ => rfl⟩

/-! ### Balance -/

/-- Undos (or redos) of an origin, with gestures of others in between: what each took and the mirror
it left, the last one first. -/
inductive TurnsAll (o : Bytes) (landing : Landing) :
    Tracked → List (Intention Inverse) → List (Intention Inverse) → Tracked → Prop
  | done (r : Tracked) : TurnsAll o landing r [] [] r
  | turn {r r' r'' : Tracked} {taken mirrors : List (Intention Inverse)} {i m : Intention Inverse}
      {ops : List Op} (hAll : TurnsAll o landing r taken mirrors r')
      (hTurn : r'.turn o landing = some (ops, r'')) (hTurns : r'.Turns o landing i m r'') :
      TurnsAll o landing r (i :: taken) (m :: mirrors) r''
  | other {r r' : Tracked} {taken mirrors : List (Intention Inverse)}
      (hAll : TurnsAll o landing r taken mirrors r') (g : Gesture) (hOther : ¬g.isOf r' o) :
      TurnsAll o landing r taken mirrors (r'.act g).2

theorem TurnsAll.settled {o : Bytes} {landing : Landing} {taken mirrors : List (Intention Inverse)}
    (h : TurnsAll o landing r taken mirrors r') (hr : r.Settled) : r'.Settled := by
  induction h with
  | done => exact hr
  | turn _ _ hTurns ih => exact hTurns.settled ih
  | other _ g _ ih => exact (ih.act g).1

theorem TurnsAll.balance {o : Bytes} {landing : Landing} {taken mirrors : List (Intention Inverse)}
    (h : TurnsAll o landing r taken mirrors r') (hr : r.Settled) :
    r.history.own o landing = taken.reverse ++ r'.history.own o landing ∧
      r'.history.own o landing.other = mirrors ++ r.history.own o landing.other ∧
      mirrors.map Intention.atomic = taken.map Intention.atomic ∧ mirrors.length = taken.length := by
  induction h with
  | done => exact ⟨rfl, rfl, rfl, rfl⟩
  | turn _ _ hTurns ih =>
    obtain ⟨hTaken, hLanded, hAtomic, hLength⟩ := ih
    refine ⟨?_, ?_, ?_, congrArg (· + 1) hLength⟩
    · rw [hTaken, hTurns.taken, List.reverse_cons, List.append_assoc]
      rfl
    · rw [hTurns.landed, hLanded]
      rfl
    · obtain ⟨history, -, hMirror, -⟩ := hTurns.replayed
      rw [List.map_cons, List.map_cons, hAtomic, hMirror]
      rfl
  | other hAll g hOther ih =>
    obtain ⟨hTaken, hLanded, hAtomic, hLength⟩ := ih
    have hApart := ((hAll.settled hr).act g).2 o
    exact ⟨by rw [hApart _ hOther, hTaken], by rw [hApart _ hOther, hLanded], hAtomic, hLength⟩

/-- After `k` undos of an origin, `k` redos take their mirrors, the one undone last first, and leave
the redo stack as it was: none of the `k` is refused, and there is no other if there was none. -/
structure Answers (o : Bytes) (r : Tracked) (undone mirrors : List (Intention Inverse)) (r' : Tracked)
    (redone : List (Intention Inverse)) : Prop where
  short : redone.length < undone.length → r'.doc.recordingIntention = false → (r'.redo o).isSome
  restored : redone.length = undone.length →
    redone.reverse = mirrors ∧ r'.history.own o .redo = r.history.own o .redo
  spent : redone.length = undone.length → r.history.own o .redo = [] → r'.redo o = none

theorem TurnsAll.answers {o : Bytes} {undone mirrors redone back : List (Intention Inverse)}
    (hUndos : TurnsAll o .undo r undone mirrors r') (hRedos : TurnsAll o .redo r' redone back r'')
    (hr : r.Settled) : Answers o r undone mirrors r'' redone := by
  obtain ⟨-, hMirrors, -, hLength⟩ := hUndos.balance hr
  obtain ⟨hRedone, -, -, -⟩ := hRedos.balance (hUndos.settled hr)
  change r'.history.own o .redo = mirrors ++ r.history.own o .redo at hMirrors
  have hStack := hMirrors.symm.trans hRedone
  have hRestored : redone.length = undone.length →
      redone.reverse = mirrors ∧ r''.history.own o .redo = r.history.own o .redo := by
    intro hSame
    have hEqual : mirrors.length = redone.reverse.length := by
      rw [List.length_reverse, hLength, hSame]
    obtain ⟨hTaken, hLeft⟩ := List.append_inj hStack hEqual
    exact ⟨hTaken.symm, hLeft.symm⟩
  refine ⟨fun hShort hClosed => ?_, hRestored, fun hSame hEmpty => ?_⟩
  · have hLeft : r''.history.own o .redo ≠ [] := by
      intro hNil
      have hCount := congrArg List.length hStack
      simp only [hNil, List.length_append, List.length_reverse, List.length_nil] at hCount
      omega
    rw [Option.isSome_iff_ne_none]
    intro hNone
    have hTurn : r''.turn o .redo = none := hNone
    rcases turn_eq_none.mp hTurn with hOpen | hNil
    · rw [hClosed] at hOpen
      cases hOpen
    · exact hLeft hNil
  · have hTurn : r''.turn o .redo = none :=
      turn_eq_none.mpr (.inr ((hRestored hSame).2.trans hEmpty))
    exact hTurn

end Emissions

end Tracked

end CrdtSync
