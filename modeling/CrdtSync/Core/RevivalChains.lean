import CrdtSync.Core.ClientRuns
import CrdtSync.Core.DeliveryKeeps
import CrdtSync.Core.HistoryBalance
import CrdtSync.Core.MintLatch
import CrdtSync.Core.MovableNodes

/-!
# Chains of revivals

A revival re-mints what it revives past everything its client has on record, and a recorded step
names only what is on record. So no substitution leads back to an id that has been replaced, and
following a chain of them ends at an id that has not.
-/

namespace CrdtSync

open Lib
open Std (ExtTreeMap)

/-! ### Following a map -/

/-- `last` is the end of the chain from `id`: some hops lead there and none leads on. -/
def ChainEnds {κ : Type} (next : κ → Option κ) (id last : κ) : Prop :=
  (∃ hops, ascend next hops id = some last) ∧ next last = none

theorem follow_ends {κ : Type} [DecidableEq κ] {next : κ → Option κ} (h : Acyclic next) {hops : Nat}
    {id : κ} (hEnd : ascend next (hops + 1) id = none) : ChainEnds next id (follow next hops id) := by
  induction hops generalizing id with
  | zero =>
    refine ⟨⟨0, rfl⟩, ?_⟩
    rw [ascend_succ] at hEnd
    cases hNext : next id with
    | none => exact hNext
    | some new =>
      rw [hNext] at hEnd
      cases hEnd
  | succ hops ih =>
    unfold follow
    split
    next new hNew =>
      have hNe : new ≠ id := by
        rintro rfl
        exact h new (Above.single hNew)
      rw [if_pos hNe]
      rw [ascend_succ, hNew] at hEnd
      obtain ⟨⟨n, hn⟩, hLast⟩ := ih hEnd
      refine ⟨⟨n + 1, ?_⟩, hLast⟩
      rw [ascend_succ, hNew]
      exact hn
    next hNone => exact ⟨⟨0, rfl⟩, hNone⟩

namespace History

variable {α : Type} {h : History α}

/-- The substitutions made in a sequence. -/
def nextIn (h : History α) (seq : ElementId) (id : Stamp) : Option Stamp := h.revived[toLex (seq, id)]?

def nextElement (h : History α) (id : ElementId) : Option ElementId := h.revivedElements[id]?

/-- Each hop consumes an entry, so the size of the map bounds the walk. -/
theorem current_ends {seq : ElementId} (hAcyclic : Acyclic (h.nextIn seq)) (id : Stamp) :
    ChainEnds (h.nextIn seq) id (h.current seq id) := by
  have hEnd := hAcyclic.ascend_eq_none ((h.revived.keys.map fun key => (ofLex key).2).toFinset)
    (fun x hx => by
      rw [List.mem_toFinset, List.mem_map]
      refine ⟨toLex (seq, x), ExtTreeMap.mem_keys.mpr ?_, rfl⟩
      rw [ExtTreeMap.mem_iff_isSome_getElem?, Option.isSome_iff_ne_none]
      exact hx) id
  refine follow_ends hAcyclic (ascend_eq_none_of_le (Nat.succ_le_succ ?_) hEnd)
  refine (List.toFinset_card_le _).trans_eq ?_
  rw [List.length_map, ExtTreeMap.length_keys]

theorem currentElement_ends (hAcyclic : Acyclic h.nextElement) (id : ElementId) :
    ChainEnds h.nextElement id (h.currentElement id) := by
  have hEnd := hAcyclic.ascend_eq_none h.revivedElements.keys.toFinset
    (fun x hx => by
      rw [List.mem_toFinset, ExtTreeMap.mem_keys, ExtTreeMap.mem_iff_isSome_getElem?,
        Option.isSome_iff_ne_none]
      exact hx) id
  refine follow_ends hAcyclic (ascend_eq_none_of_le (Nat.succ_le_succ ?_) hEnd)
  exact (List.toFinset_card_le _).trans_eq ExtTreeMap.length_keys

/-- A substitution by an id nothing has replaced yet closes no cycle. -/
theorem acyclic_update {κ : Type} [DecidableEq κ] {next : κ → Option κ} (h : Acyclic next) {was now : κ}
    (hNe : was ≠ now) (hNow : next now = none) : Acyclic (Function.update next was (some now)) :=
  h.hang hNe (Above.not_of_orphan hNow)

end History

/-! ### What is on record -/

namespace Document

variable {d d' : Document Content}

/-- A stamp the record of its client reaches. -/
def Spent (d : Document Content) (stamp : Stamp) : Prop := stamp.lamport ≤ d.highWater stamp.client

/-- Derived with a stamp this replica has yet to mint. -/
def Unminted (d : Document Content) (id : ElementId) : Prop :=
  ∃ stamp : Stamp, stamp.client = d.client ∧ d.highWater d.client < stamp.lamport ∧
    stamp.lamport ≤ u64Max ∧ id.mintKey = some (stampKey stamp)

/-- The same replica, its record reaching at least as far. -/
structure Extends (d d' : Document Content) : Prop where
  client : d'.client = d.client
  highWater : ∀ client, d.highWater client ≤ d'.highWater client

theorem Extends.refl (d : Document Content) : Extends d d := ⟨rfl, fun _ => le_rfl⟩

theorem Extends.trans {d'' : Document Content} (h : Extends d d') (h' : Extends d' d'') :
    Extends d d'' :=
  ⟨h'.client.trans h.client, fun client => (h.highWater client).trans (h'.highWater client)⟩

theorem Settles.extends (h : Settles d d') : Extends d d' := ⟨h.client, h.highWater⟩

theorem Extends.spent (h : Extends d d') {stamp : Stamp} (hSpent : d.Spent stamp) : d'.Spent stamp :=
  hSpent.trans (h.highWater _)

theorem Extends.unminted (h : Extends d d') {id : ElementId} (hId : d'.Unminted id) :
    d.Unminted id := by
  obtain ⟨stamp, hClient, hAbove, hRange, hKey⟩ := hId
  rw [h.client] at hClient hAbove
  exact ⟨stamp, hClient, (h.highWater _).trans_lt hAbove, hRange, hKey⟩

/-- Derived with a stamp on record. -/
theorem not_unminted {id : ElementId} {stamp : Stamp} (hStamp : stamp ∈ d.covered)
    (hKey : id.mintKey = some (stampKey stamp)) : ¬d.Unminted id := by
  rintro ⟨next, hClient, hAbove, hRange, hNext⟩
  have hCeiling : LAMPORT_STATE_CEILING ≤ u64Max := by decide
  obtain ⟨hLamport, hSame⟩ := stampKey_inj hRange (hStamp.1.trans hCeiling)
    (Option.some.inj (hNext.symm.trans hKey))
  have hReached := hStamp.2
  rw [← hSame, hClient, ← hLamport] at hReached
  omega

end Document

/-- The nodes that are not derived with a stamp of this client. -/
def Foreign (client : ClientId) : Set ElementId :=
  {id | ∀ stamp : Stamp, stamp.client = client → id.mintKey ≠ some (stampKey stamp)}

/-- A reveal names no node derived with a stamp of this client. -/
def OpKind.Brings (client : ClientId) (kind : OpKind) : Prop :=
  ∀ node tag, kind = .xmlReveal node tag → node ∈ Foreign client

theorem Tracked.Authored.brings {kind : OpKind} (h : Tracked.Authored kind) (client : ClientId) :
    kind.Brings client :=
  fun node tag hKind => absurd hKind (h node tag)

/-- A step names only what is on record, and emits no reveal. -/
def Inverse.Sound (d : Document Content) : Inverse → Prop
  | .op _ kind => Tracked.Authored kind
  | .reviveItem _ _ _ was => d.Spent was
  | .reviveRun _ _ _ was => ∀ id ∈ was, d.Spent id
  | .reviveNode _ _ _ was wasNode => d.Spent was ∧ ¬d.Unminted wasNode
  | .ranged _ _ _ _ was => ¬d.Unminted was
  | .regrant _ _ _ _ _ _ was => ¬d.Unminted was

theorem Inverse.Sound.mono {d d' : Document Content} {step : Inverse} (h : step.Sound d)
    (hExtends : d.Extends d') : step.Sound d' := by
  cases step with
  | op target kind => exact h
  | reviveItem list anchor value was => exact hExtends.spent h
  | reviveRun text anchor s was => exact fun id hId => hExtends.spent (h id hId)
  | reviveNode list anchor node was wasNode => exact ⟨hExtends.spent h.1, mt hExtends.unminted h.2⟩
  | ranged start stop name payload was => exact mt hExtends.unminted h
  | regrant target subject grant effect scope grantor was => exact mt hExtends.unminted h

/-- A replica that holds what is on record, and no node of its own it was not told of by a birth. -/
structure Document.Grounded (d : Document Content) : Prop where
  covers : d.Covers
  known : d.content.Known (Foreign d.client)
  buffer : ∀ op ∈ d.buffer, op.kind.Brings d.client

namespace FugueList

variable {l : FugueList Element} {S : Set Stamp} {id : Stamp}

theorem Within.of_nodeValue (h : l.Within S) {value : Element} (hValue : l.nodeValue id = some value) :
    id ∈ S := by
  refine h.ids id fun hNone => ?_
  rw [nodeValue, (cellAt_eq_none.mp hNone).1] at hValue
  cases hValue

theorem Within.of_liveIndex (h : l.Within S) {index : Nat} (hIndex : l.liveIndex id = some index) :
    id ∈ S := by
  obtain ⟨hLt, hFound, -⟩ := List.findIdx?_eq_some_iff_getElem.mp hIndex
  have hLive : id ∈ l.liveOrder := (of_decide_eq_true hFound) ▸ List.getElem_mem hLt
  obtain ⟨record, -, hShown⟩ := List.mem_filterMap.mp hLive
  refine h.ids id fun hNone => ?_
  have hAbsent := (cellAt_eq_none.mp hNone).1
  cases record with
  | dead => cases hShown
  | node other =>
    dsimp only at hShown
    split at hShown
    · cases hShown
    next hHidden =>
      obtain rfl := Option.some.inj hShown
      rw [hidden, hAbsent] at hHidden
      exact hHidden rfl

end FugueList

namespace Content

variable {c : Content}

theorem slotInverse_authored {map : ElementId} {key : Bytes} {step : Inverse}
    (h : c.slotInverse map key = some step) : ∃ kind, step = .op map kind ∧ Tracked.Authored kind := by
  obtain ⟨m, -, hStep⟩ := Option.bind_eq_some_iff.mp h
  obtain ⟨kind, hKind, rfl⟩ := Option.map_eq_some_iff.mp hStep
  refine ⟨kind, rfl, ?_⟩
  split at hKind
  case h_8 =>
    obtain ⟨x, -, rfl⟩ := Option.map_eq_some_iff.mp hKind
    rintro _ _ ⟨⟩
  case h_10 => cases hKind
  all_goals
    obtain rfl := Option.some.inj hKind
    rintro _ _ ⟨⟩

theorem moveInverse_authored {node : ElementId} {step : Inverse} (h : c.moveInverse node = some step) :
    ∃ target kind, step = .op target kind ∧ Tracked.Authored kind := by
  obtain ⟨home, -, hHome⟩ := Option.bind_eq_some_iff.mp h
  obtain ⟨l, -, hSlots⟩ := Option.bind_eq_some_iff.mp hHome
  obtain ⟨slot, -, hSlot⟩ := Option.bind_eq_some_iff.mp hSlots
  obtain ⟨index, -, rfl⟩ := Option.map_eq_some_iff.mp hSlot
  exact ⟨home, _, rfl, nofun⟩

end Content

namespace Document.Grounded

variable {d : Document Content}

theorem not_unminted_foreign {node : ElementId} (hNode : node ∈ Foreign d.client) :
    ¬d.Unminted node := by
  rintro ⟨stamp, hClient, -, -, hKey⟩
  exact hNode stamp hClient hKey

theorem not_unminted_movable (h : d.Grounded) {node : ElementId}
    (hNode : d.content.isMovable node = true) :
    ¬d.Unminted node := by
  rcases h.known.stamp h.covers.content hNode with hForeign | ⟨stamp, hStamp, hKey⟩
  · exact not_unminted_foreign hForeign
  · exact not_unminted hStamp hKey

theorem sound_listDeleteInverse (h : d.Grounded) {list : ElementId} {id : Stamp} {step : Inverse}
    (hStep : d.content.listDeleteInverse list id = some step) : step.Sound d := by
  obtain ⟨value, hValue, hSome⟩ := Option.bind_eq_some_iff.mp hStep
  obtain ⟨l, hList, hNode⟩ := Option.bind_eq_some_iff.mp hValue
  have hSpent : d.Spent id := ((h.covers.content.lists list l hList).of_nodeValue hNode).2
  split at hSome
  · obtain rfl := Option.some.inj hSome
    exact hSpent
  · obtain ⟨node, -, hRenders⟩ := Option.bind_eq_some_iff.mp hSome
    split at hRenders
    next hShown =>
      obtain ⟨snap, -, rfl⟩ := Option.map_eq_some_iff.mp hRenders
      refine ⟨hSpent, h.not_unminted_movable (Content.isMovable_iff.mpr (.inl ?_))⟩
      obtain ⟨p, hPlace, -⟩ := List.any_eq_true.mp hShown
      refine ExtTreeMap.mem_iff_isSome_getElem?.mpr (Option.isSome_iff_ne_none.mpr fun hNone => ?_)
      rw [hNone] at hPlace
      cases hPlace
    · cases hRenders

theorem sound_textDeleteInverse (h : d.Grounded) {text : ElementId} {ids : List Stamp} {step : Inverse}
    (hStep : d.content.textDeleteInverse text ids = some step) : step.Sound d := by
  obtain ⟨t, hText, hSome⟩ := Option.bind_eq_some_iff.mp hStep
  obtain ⟨first, -, rfl⟩ := Option.map_eq_some_iff.mp hSome
  intro id hId
  obtain ⟨pos, hPos, rfl⟩ := List.mem_map.mp hId
  obtain ⟨id, -, hIndex⟩ := List.mem_filterMap.mp ((List.mem_insertionSort _).mp hPos)
  obtain ⟨index, hLive, rfl⟩ := Option.map_eq_some_iff.mp hIndex
  exact ((h.covers.content.texts text t hText).of_liveIndex hLive).2

theorem sound_rangedInverse (h : d.Grounded) {id : ElementId} {step : Inverse}
    (hStep : d.content.rangedInverse id = some step) : step.Sound d := by
  obtain ⟨e, hRanged, hSome⟩ := Option.bind_eq_some_iff.mp hStep
  split at hSome
  · cases hSome
  · obtain ⟨payload, -, rfl⟩ := Option.map_eq_some_iff.mp hSome
    rcases (h.covers.content.ranged id e hRanged).1 with hNone | ⟨stamp, hStamp, rfl⟩
    · cases hNone
    · exact not_unminted hStamp (mintKey_rangedId stamp)

/-- What a mutation's inverse names is on record before the mutation lands. -/
theorem sound_inverse (h : d.Grounded) (target : ElementId) (kind : OpKind) (stamp : Stamp) :
    ∀ step ∈ d.content.inverse target kind stamp, step.Sound d := by
  have hSlot {key : Bytes} {step : Inverse} (hStep : d.content.slotInverse target key = some step) :
      step.Sound d := by
    obtain ⟨made, rfl, hAuthored⟩ := Content.slotInverse_authored hStep
    exact hAuthored
  have hCounter (key : Bytes) (cancel : OpKind) (hCancel : Tracked.Authored cancel) :
      ∀ step ∈ d.content.counterInverse target key cancel, step.Sound d := by
    intro step hStep
    rcases List.mem_append.mp hStep with hRestore | hLast
    · split at hRestore
      · cases hRestore
      · exact hSlot (Option.mem_toList.mp hRestore)
    · rw [List.mem_singleton.mp hLast]
      exact hCancel
  have hSingle (kind : OpKind) :
      ∀ step, d.content.singleInverse target kind stamp = some step → step.Sound d := by
    intro step hStep
    cases kind with
    | registerSet | mapSet | mapDelete | mapCreate | listCreate | textCreate | xmlElementCreate
    | xmlFragmentCreate => exact hSlot hStep
    | listInsert | xmlInsertChild | rangedCreate | aclGrant =>
      obtain rfl := Option.some.inj hStep
      nofun
    | listDelete id => exact h.sound_listDeleteInverse hStep
    | textInsert s anchor =>
      simp only [Content.singleInverse] at hStep
      split at hStep
      · cases hStep
      · obtain rfl := Option.some.inj hStep
        nofun
    | textDelete ids => exact h.sound_textDeleteInverse hStep
    | xmlMove node anchor =>
      obtain ⟨home, made, rfl, hAuthored⟩ := Content.moveInverse_authored hStep
      exact hAuthored
    | rangedSetPayload id payload =>
      obtain ⟨e, -, hSome⟩ := Option.bind_eq_some_iff.mp hStep
      split at hSome
      · obtain rfl := Option.some.inj hSome
        nofun
      · cases hSome
    | rangedDelete id => exact h.sound_rangedInverse hStep
    | aclRevoke id =>
      obtain ⟨e, hAcl, rfl⟩ := Option.map_eq_some_iff.mp hStep
      rcases h.covers.content.acl id e hAcl with hNone | ⟨made, hMade, rfl⟩
      · cases hNone
      · exact not_unminted hMade (mintKey_aclId made)
    | xmlReveal | counterInc | counterDec => cases hStep
  intro step hStep
  unfold Content.inverse at hStep
  split at hStep
  next key amount => exact hCounter key (.counterDec key amount) nofun step hStep
  next key amount => exact hCounter key (.counterInc key amount) nofun step hStep
  · exact hSingle _ step (Option.mem_toList.mp hStep)

end Document.Grounded

/-! ### Histories on record -/

namespace History

/-- Only what is on record has been replaced, and no chain of substitutions closes. -/
structure Chained (d : Document Content) (h : History Inverse) : Prop where
  revived : ∀ seq was, h.nextIn seq was ≠ none → d.Spent was
  elements : ∀ was, h.nextElement was ≠ none → ¬d.Unminted was
  chains : ∀ seq, Acyclic (h.nextIn seq)
  elementChains : Acyclic h.nextElement

/-- Every recorded step names what is on record. -/
structure Sound (d : Document Content) (h : History Inverse) : Prop extends Chained d h where
  opened : ∀ step ∈ h.opened, step.Sound d
  stacked : ∀ i ∈ h.undo ++ h.redo, ∀ step ∈ i.steps, step.Sound d

variable {d d' : Document Content} {h h' : History Inverse}

theorem Chained.mono (hChained : h.Chained d) (hExtends : d.Extends d') : h.Chained d' where
  revived seq was hWas := hExtends.spent (hChained.revived seq was hWas)
  elements was hWas := mt hExtends.unminted (hChained.elements was hWas)
  chains := hChained.chains
  elementChains := hChained.elementChains

theorem Chained.congr (hChained : h.Chained d) (hRevived : h'.revived = h.revived)
    (hElements : h'.revivedElements = h.revivedElements) : h'.Chained d := by
  have hNext : h'.nextIn = h.nextIn := by
    unfold nextIn
    rw [hRevived]
  have hNextElement : h'.nextElement = h.nextElement := by
    unfold nextElement
    rw [hElements]
  exact ⟨hNext ▸ hChained.revived, hNextElement ▸ hChained.elements, hNext ▸ hChained.chains,
    hNextElement ▸ hChained.elementChains⟩

theorem Sound.mono (hSound : h.Sound d) (hExtends : d.Extends d') : h.Sound d' :=
  ⟨hSound.toChained.mono hExtends, fun step hStep => (hSound.opened step hStep).mono hExtends,
    fun i hi step hStep => (hSound.stacked i hi step hStep).mono hExtends⟩

/-- What has been minted past the record replaces what is on it. -/
theorem Chained.substitute (hChained : h.Chained d) {seq : ElementId} {was now : Stamp}
    (hWas : d.Spent was) (hNow : ¬d.Spent now) : (h.substitute seq was now).Chained d := by
  unfold History.substitute
  split
  next hNe =>
    have hNext (other : ElementId) :
        nextIn { h with revived := h.revived.insert (toLex (seq, was)) now }
        other = if other = seq then Function.update (h.nextIn seq) was (some now) else h.nextIn
            other := by
      funext id
      rw [nextIn, ExtTreeMap.getElem?_insert]
      by_cases hSeq : other = seq
      · subst hSeq
        rw [if_pos rfl]
        by_cases hId : id = was
        · subst hId
          rw [Function.update_self, if_pos (by simp)]
        · rw [Function.update_of_ne hId, if_neg (by simpa using Ne.symm hId)]
          rfl
      · have hKey : toLex (seq, was) ≠ toLex (other, id) := fun hEq =>
          hSeq (congrArg Prod.fst (toLex.injective hEq)).symm
        rw [if_neg hSeq, if_neg (by simpa using hKey)]
        rfl
    have hFresh : h.nextIn seq now = none := by
      by_contra hHeld
      exact hNow (hChained.revived seq now hHeld)
    refine ⟨fun other id hId => ?_, hChained.elements, fun other => ?_, hChained.elementChains⟩
    · rw [hNext] at hId
      split at hId
      · by_cases hSame : id = was
        · rwa [hSame]
        · rw [Function.update_of_ne hSame] at hId
          exact hChained.revived _ _ hId
      · exact hChained.revived _ _ hId
    · rw [hNext]
      split
      · exact acyclic_update (hChained.chains seq) hNe hFresh
      · exact hChained.chains other
  · exact hChained

theorem Chained.substituteElement (hChained : h.Chained d) {was now : ElementId}
    (hWas : ¬d.Unminted was) (hNow : d.Unminted now) : (h.substituteElement was now).Chained d := by
  unfold History.substituteElement
  split
  next hNe =>
    have hNext : nextElement { h with revivedElements := h.revivedElements.insert was now } =
        Function.update h.nextElement was (some now) := by
      funext id
      rw [nextElement, ExtTreeMap.getElem?_insert]
      by_cases hId : id = was
      · subst hId
        rw [Function.update_self, if_pos (by simp)]
      · rw [Function.update_of_ne hId, if_neg (by simpa using Ne.symm hId)]
        rfl
    have hFresh : h.nextElement now = none := by
      by_contra hHeld
      exact hChained.elements now hHeld hNow
    refine ⟨hChained.revived, fun id hId => ?_, hChained.chains, ?_⟩
    · rw [hNext] at hId
      by_cases hSame : id = was
      · rwa [hSame]
      · rw [Function.update_of_ne hSame] at hId
        exact hChained.elements _ hId
    · rw [hNext]
      exact acyclic_update hChained.elementChains hNe hFresh
  · exact hChained

theorem Sound.foldl_push (hSound : h.Sound d) {steps : List Inverse}
    (hSteps : ∀ step ∈ steps, step.Sound d) :
    (steps.foldl push h).Sound d := by
  obtain ⟨hSame, hOpened⟩ := sameStacks_foldl_push h steps
  obtain ⟨hRevived, hElements⟩ := foldl_push_maps h steps
  refine ⟨hSound.toChained.congr hRevived hElements, fun step hStep => ?_, ?_⟩
  · rw [hOpened] at hStep
    exact (List.mem_append.mp hStep).elim (hSound.opened step) (hSteps step)
  · rw [hSame.undo, hSame.redo]
    exact hSound.stacked

/-- Closing moves the open steps to a stack, and drops intentions at most. -/
theorem Sound.close (hSound : h.Sound d) (atomic : Bool) : (h.close atomic).Sound d := by
  unfold History.close
  split
  · exact hSound
  · dsimp only
    have hIntention : ∀ step ∈ (⟨h.origin.getD [], h.opened, atomic⟩ : Intention Inverse).steps,
        step.Sound d := hSound.opened
    split
    · split
      · refine ⟨hSound.toChained.congr rfl rfl, List.forall_mem_nil _, fun i hi => ?_⟩
        rcases List.mem_cons.mp hi with rfl | hOld
        · exact hIntention
        · exact hSound.stacked i hOld
      · refine ⟨hSound.toChained.congr rfl rfl, List.forall_mem_nil _, fun i hi => ?_⟩
        rcases List.mem_cons.mp hi with rfl | hOld
        · exact hIntention
        · refine hSound.stacked i ?_
          exact (List.mem_append.mp hOld).elim (List.mem_append_left _)
            fun hRedo => List.mem_append_right _ (List.mem_of_mem_filter hRedo)
    · refine ⟨hSound.toChained.congr rfl rfl, List.forall_mem_nil _, fun i hi => ?_⟩
      rcases List.mem_append.mp hi with hUndo | hRedo
      · exact hSound.stacked i (List.mem_append_left _ hUndo)
      · rcases List.mem_cons.mp hRedo with rfl | hOld
        · exact hIntention
        · exact hSound.stacked i (List.mem_append_right _ hOld)

theorem Sound.prune (hSound : h.Sound d) : h.prune.Sound d := by
  unfold History.prune
  split
  · have hEmpty : ∀ seq, nextIn { h with revived := ∅, revivedElements := ∅ } seq = fun _ => none :=
      fun seq => funext fun id => ExtTreeMap.getElem?_empty
    have hNone : nextElement { h with revived := ∅, revivedElements := ∅ } = fun _ => none :=
      funext fun id => ExtTreeMap.getElem?_empty
    have hAcyclic {κ : Type} : Acyclic fun _ : κ => (none : Option κ) :=
      fun a => Above.not_of_orphan rfl
    refine ⟨⟨fun seq was hWas => ?_, fun was hWas => ?_, fun seq => ?_, ?_⟩, hSound.opened,
        hSound.stacked⟩
    · exact absurd (congrFun (hEmpty seq) was) hWas
    · exact absurd (congrFun hNone was) hWas
    · rw [hEmpty]
      exact hAcyclic
    · rw [hNone]
      exact hAcyclic
  · exact hSound

end History

namespace Document

section Emission

variable {σ : Type} [Folds σ] {d : Document σ} {e : Edit} {op : Op}

/-- An edit that is not refused folds its mutation in and takes nothing off the record. -/
theorem folds_of_emitted (hEmitted : d.emitted e = some op) :
    (d.emit e).content = Folds.applyKind d.content e.target e.kind op.stamp d.client ∧
      ∀ client, d.highWater client ≤ (d.emit e).highWater client := by
  unfold emitted at hEmitted
  split at hEmitted
  · cases hEmitted
  next hOpen =>
    obtain ⟨stamp, hStamp, rfl⟩ := Option.map_eq_some_iff.mp hEmitted
    have hClock := settles_advanceClock d e.zone (stamp.lamport + span e.kind - 1)
    have hContent := content_advanceClock d e.zone (stamp.lamport + span e.kind - 1)
    unfold emit
    rw [if_neg hOpen, hStamp]
    dsimp only
    generalize d.advanceClock e.zone (stamp.lamport + span e.kind - 1) = clocked at hClock hContent
    constructor
    · change Folds.applyKind (clocked.mintOpId.2.recordStamp stamp (span e.kind)).content e.target
        e.kind
        stamp clocked.client = _
      rw [content_recordStamp, hClock.client]
      exact congrArg (fun content => Folds.applyKind content e.target e.kind stamp d.client) hContent
    · intro client
      have hRecorded := (settles_recordStamp clocked.mintOpId.2 stamp (span e.kind)).highWater client
      exact (hClock.highWater client).trans hRecorded

end Emission

variable [IdBytes] {d d' : Document Content}

theorem extends_emit (d : Document Content) (e : Edit) : Extends d (d.emit e) := by
  cases hEmitted : d.emitted e with
  | none =>
    rw [emit_of_emitted_eq_none hEmitted]
    exact ⟨rfl, fun _ => le_rfl⟩
  | some op => exact ⟨(emits_of_emitted hEmitted).client, (folds_of_emitted hEmitted).2⟩

theorem Grounded.emit (h : d.Grounded) {e : Edit} (hKind : e.kind.Brings d.client) :
    (d.emit e).Grounded := by
  have hClient := (extends_emit d e).client
  refine ⟨h.covers.emit e, ?_, ?_⟩
  · rw [hClient]
    cases hEmitted : d.emitted e with
    | none =>
      rw [emit_of_emitted_eq_none hEmitted]
      exact h.known
    | some op =>
      rw [(folds_of_emitted hEmitted).1]
      exact h.known.applyKind e.target hKind op.stamp d.client
  · rw [(emit_buffer d e).1, hClient]
    exact h.buffer

/-- What delivery applies brings in no reveal of this replica's own nodes. -/
theorem carried_known (client : ClientId) :
    Carried (fun d : Document Content => d.content.Known (Foreign client)) fun op => op.kind.Brings
        client where
  congr hSame h := by
    rw [hSame.content]
    exact h
  untagged h := h
  applyNow {d op} h hOp := by
    have hContent : (d.applyNow op).content =
        Folds.applyKind d.content op.target op.kind op.stamp op.id.client := by
      unfold applyNow
      change Folds.applyKind (recordStamp _ op.stamp (span op.kind)).content op.target op.kind
          op.stamp _ = _
      rw [content_recordStamp, content_advanceClock]
    rw [hContent]
    exact h.applyKind op.target hOp op.stamp op.id.client

omit [IdBytes] in
/-- What a document grounds its delivery on, and what delivery leaves of it. -/
theorem Grounded.upholds (h : d.Grounded) :
    d.Upholds (fun d' => d'.content.Known (Foreign d.client)) fun op => op.kind.Brings d.client :=
  ⟨h.known, h.buffer⟩

omit [IdBytes] in
theorem grounded_of_upholds (hCovers : d'.Covers) (hClient : d'.client = d.client)
    (h : d'.Upholds (fun d' => d'.content.Known (Foreign d.client)) fun op => op.kind.Brings d.client) :
    d'.Grounded := by
  refine ⟨hCovers, ?_, ?_⟩
  · rw [hClient]
    exact h.1
  · rw [hClient]
    exact h.2

theorem Grounded.drainBuffer (h : d.Grounded) : d.drainBuffer.Grounded :=
  grounded_of_upholds h.covers.drainBuffer (settles_drainBuffer d).client
    ((carried_known d.client).drainBuffer h.upholds)

end Document

namespace Tracked

/-- A stamp minted past the record of its client. -/
def Fresh (d : Document Content) (stamp : Stamp) : Prop :=
  stamp.client = d.client ∧ d.highWater d.client < stamp.lamport ∧ stamp.lamport ≤ u64Max

theorem Fresh.unminted {d : Document Content} {stamp : Stamp} {id : ElementId} (h : Fresh d stamp)
    (hKey : id.mintKey = some (stampKey stamp)) : d.Unminted id := ⟨stamp, h.1, h.2.1, h.2.2, hKey⟩

theorem Fresh.not_spent {d : Document Content} {stamp : Stamp} (h : Fresh d stamp) :
    ¬d.Spent stamp := by
  unfold Document.Spent
  rw [h.1]
  exact not_le.mpr h.2.1

/-- The members of a run lie past its base. -/
theorem Fresh.runMember {d : Document Content} {stamp : Stamp} (h : Fresh d stamp) (k : Nat) :
    ¬d.Spent (stamp.runMember k) := by
  unfold Stamp.runMember
  split
  next sum hSum =>
    obtain ⟨rfl, -⟩ := checkedAdd_eq_some.mp hSum
    unfold Document.Spent
    dsimp only
    rw [h.1]
    exact not_le.mpr (h.2.1.trans_le (Nat.le_add_right _ _))
  · unfold Document.Spent
    dsimp only
    rw [h.1]
    exact not_le.mpr (h.2.1.trans_le h.2.2)

theorem mintKey_nodeAt {c : Content} {list element : ElementId} {stamp : Stamp}
    (h : nodeAt c list stamp = some element) : element.mintKey = some (stampKey stamp) := by
  have hIn := List.mem_of_find?_eq_some h
  simp only [List.mem_cons, List.not_mem_nil, or_false] at hIn
  rcases hIn with rfl | rfl
  · exact mintKey_xmlChildId ..
  · exact mintKey_xmlChildId ..

theorem authored_followRevivals (h : History Inverse) (seq : ElementId) {kind : OpKind}
    (hKind : Authored kind) : Authored (followRevivals h seq kind) := by
  cases kind with
  | xmlReveal node tag => exact absurd rfl (hKind node tag)
  | _ => nofun

section Emissions

variable [IdBytes] [Zones] {r r' : Tracked}

/-- Everything held and everything recorded is on the record of the replica. -/
structure Sound (r : Tracked) : Prop where
  doc : r.doc.Grounded
  history : r.history.Sound r.doc

theorem Sound.emit (h : r.Sound) (target : ElementId) {kind : OpKind}
    (hKind : kind.Brings r.doc.client) :
    (r.emit target kind).Sound ∧ r.doc.Extends (r.emit target kind).doc := by
  have hDoc : (r.emit target kind).doc = r.doc.emit (r.edit target kind) := emit_doc r target kind
  have hExtends : r.doc.Extends (r.emit target kind).doc := by
    rw [hDoc]
    exact Document.extends_emit ..
  refine ⟨⟨?_, ?_⟩, hExtends⟩
  · rw [hDoc]
    exact h.doc.emit (e := r.edit target kind) hKind
  · suffices hPushed : (r.emit target kind).history.Sound r.doc from hPushed.mono hExtends
    unfold Tracked.emit emitStamped
    dsimp only
    split
    · exact h.history
    · dsimp only
      split
      · exact h.history.foldl_push (h.doc.sound_inverse target kind _)
      · exact h.history

theorem Emitted.sound {K : OpKind → Prop} (hEmitted : Emitted K r r') (h : r.Sound)
    (hK : ∀ kind, K kind → kind.Brings r.doc.client) : r'.Sound ∧ r.doc.Extends r'.doc := by
  refine hEmitted.induct (P := fun r' => r'.Sound ∧ r.doc.Extends r'.doc)
    (fun r₁ target kind hKind ih => ?_) ⟨h, .refl _⟩
  obtain ⟨hSound, hExtends⟩ := ih.1.emit target (ih.2.client ▸ hK kind hKind)
  exact ⟨hSound, ih.2.trans hExtends⟩

/-! ### Revivals -/

theorem fresh_of_emitStamped {target : ElementId} {kind : OpKind} {stamp : Stamp}
    (hMinted : r.emitStamped target kind = (some stamp, r')) : Fresh r.doc stamp := by
  unfold emitStamped at hMinted
  dsimp only at hMinted
  split at hMinted
  · cases hMinted
  next op hEmitted =>
    obtain ⟨hSame, -⟩ := Prod.mk.inj hMinted
    obtain rfl := Option.some.inj hSame
    obtain ⟨hReserved, -, hStart⟩ := Document.emitted_spec hEmitted
    have hCeiling : LAMPORT_STATE_CEILING ≤ u64Max := by decide
    have hEnd := hReserved.2.2.2
    refine ⟨hReserved.2.1, ?_, by omega⟩
    rw [hStart, Document.mintFloor_eq]
    exact Nat.lt_succ_of_le (le_max_right _ _)

theorem fresh_of_reviveNode {list : ElementId} {anchor : Anchor} {node : Snap} {now : Stamp}
    (hRevived : r.reviveNode list anchor node = (some now, r')) : Fresh r.doc now := by
  cases node with
  | text s =>
    unfold reviveNode at hRevived
    split at hRevived
    · cases hRevived
    next hMinted =>
      obtain ⟨hSame, -⟩ := Prod.mk.inj hRevived
      obtain rfl := Option.some.inj hSame
      exact fresh_of_emitStamped hMinted
  | xmlElement tag attrs children =>
    unfold reviveNode at hRevived
    split at hRevived
    · cases hRevived
    next hMinted =>
      obtain ⟨hSame, -⟩ := Prod.mk.inj hRevived
      obtain rfl := Option.some.inj hSame
      exact fresh_of_emitStamped hMinted
  | _ => cases hRevived

theorem fresh_of_reviveRanged {start stop : RangeAnchor} {name : Option Bytes} {payload : Snap}
    {now : ElementId} (hRevived : r.reviveRanged start stop name payload = (some now, r')) :
    ∃ stamp, Fresh r.doc stamp ∧ now = rangedId stamp := by
  unfold reviveRanged at hRevived
  dsimp only at hRevived
  split at hRevived
  · cases hRevived
  · split at hRevived
    · cases hRevived
    next stamp _ hMinted =>
      obtain ⟨hSame, -⟩ := Prod.mk.inj hRevived
      obtain rfl := Option.some.inj hSame
      exact ⟨stamp, fresh_of_emitStamped hMinted, rfl⟩

/-- Reached by emitting, and by replacing what was on the record before. -/
structure Revives (r r' : Tracked) : Prop where
  sound : r'.Sound
  grown : r.doc.Extends r'.doc
  chained : r'.history.Chained r.doc

theorem Emitted.revives (hEmitted : Emitted Authored r r') (h : r.Sound) : Revives r r' := by
  obtain ⟨hSound, hExtends⟩ := hEmitted.sound h fun kind hKind => hKind.brings _
  have hRecords := hEmitted.records
  exact ⟨hSound, hExtends, h.history.toChained.congr hRecords.revived hRecords.revivedElements⟩

omit [IdBytes] [Zones] in
theorem Revives.substitute (h : Revives r r') {seq : ElementId} {was now : Stamp}
    (hWas : r.doc.Spent was) (hNow : ¬r.doc.Spent now) : Revives r (r'.substitute seq was now) := by
  have hChained : (r'.history.substitute seq was now).Chained r.doc := h.chained.substitute hWas hNow
  refine ⟨⟨h.sound.doc, hChained.mono h.grown, ?_, ?_⟩, h.grown, hChained⟩
  · have hOpened : (r'.history.substitute seq was now).opened = r'.history.opened := by
      unfold History.substitute
      split <;> rfl
    exact hOpened ▸ h.sound.history.opened
  · have hSame := History.sameStacks_substitute r'.history seq was now
    change ∀ i ∈ (r'.history.substitute seq was now).undo ++ (r'.history.substitute seq was now).redo, _
    rw [hSame.undo, hSame.redo]
    exact h.sound.history.stacked

omit [IdBytes] [Zones] in
theorem Revives.substituteElement (h : Revives r r') {was now : ElementId} (hWas : ¬r.doc.Unminted was)
    (hNow : r.doc.Unminted now) : Revives r (r'.substituteElement was now) := by
  have hChained := h.chained.substituteElement hWas hNow
  refine ⟨⟨h.sound.doc, hChained.mono h.grown, ?_, ?_⟩, h.grown, hChained⟩
  · have hOpened : (r'.history.substituteElement was now).opened = r'.history.opened := by
      unfold History.substituteElement
      split <;> rfl
    exact hOpened ▸ h.sound.history.opened
  · have hSame := History.sameStacks_substituteElement r'.history was now
    change ∀ i ∈ (r'.history.substituteElement was now).undo ++
      (r'.history.substituteElement was now).redo, _
    rw [hSame.undo, hSame.redo]
    exact h.sound.history.stacked

omit [IdBytes] [Zones] in
/-- What is derived from an element follows it: its attributes, its children, its payload. -/
theorem Revives.substituteDerived (h : Revives r r') {was now : ElementId}
    {derived : ElementId → ElementId}
    (hDerived : ∀ id, (derived id).mintKey = id.mintKey) (hWas : ¬r.doc.Unminted was)
    (hNow : r.doc.Unminted now) : Revives r (r'.substituteElement (derived was) (derived now)) := by
  have hSame (id : ElementId) : r.doc.Unminted (derived id) ↔ r.doc.Unminted id := by
    unfold Document.Unminted
    rw [hDerived]
  exact h.substituteElement (mt (hSame was).mp hWas) ((hSame now).mpr hNow)

theorem Sound.emitInverse (h : r.Sound) {step : Inverse} (hStep : step.Sound r.doc) :
    Revives r (r.emitInverse step) := by
  have hStamped {target : ElementId} {kind : OpKind} {minted : Option Stamp × Tracked}
      (hMinted : r.emitStamped target kind = minted) (hKind : Authored kind) : Revives r minted.2 := by
    have hRevives := (Emitted.stamped r target hKind).revives h
    rwa [hMinted] at hRevives
  cases step with
  | op target kind =>
    exact (Emitted.emit r _ (authored_followRevivals r.history _ hStep)).revives h
  | regrant target subject grant effect scope grantor was =>
    simp only [Tracked.emitInverse]
    split
    next hNone => exact hStamped hNone (by rintro _ _ ⟨⟩)
    next stamp _ hSome =>
      exact (hStamped hSome (by rintro _ _ ⟨⟩)).substituteElement hStep
        ((fresh_of_emitStamped hSome).unminted (mintKey_aclId stamp))
  | reviveItem list anchor value was =>
    simp only [Tracked.emitInverse]
    split
    next hNone => exact hStamped hNone (by rintro _ _ ⟨⟩)
    next hSome => exact (hStamped hSome (by rintro _ _ ⟨⟩)).substitute hStep (fresh_of_emitStamped hSome).not_spent
  | reviveRun text anchor s was =>
    simp only [Tracked.emitInverse]
    split
    next hNone => exact hStamped hNone (by rintro _ _ ⟨⟩)
    next now r' hSome =>
      have hFold (pairs : List (Stamp × Nat)) (hPairs : ∀ pair ∈ pairs, r.doc.Spent pair.1)
          {r' : Tracked} (hr' : Revives r r') : Revives r
            (pairs.foldl (fun r pair => r.substitute text pair.1 (now.runMember pair.2)) r') := by
        induction pairs generalizing r' with
        | nil => exact hr'
        | cons pair pairs ih =>
          refine ih (fun other hOther => hPairs other (List.mem_cons_of_mem _ hOther)) ?_
          exact hr'.substitute (hPairs pair List.mem_cons_self)
            ((fresh_of_emitStamped hSome).runMember pair.2)
      refine hFold _ (fun pair hPair => hStep _ ?_) (hStamped hSome (by rintro _ _ ⟨⟩))
      exact List.fst_mem_of_mem_zipIdx hPair
  | reviveNode list anchor node was wasNode =>
    have hRevived := (Emitted.reviveNode r list anchor node).revives h
    simp only [Tracked.emitInverse]
    split
    next hNone =>
      rw [hNone] at hRevived
      exact hRevived
    next now r' hSome =>
      rw [hSome] at hRevived
      have hFresh := fresh_of_reviveNode hSome
      have hSeq : Revives r (r'.substitute list was now) :=
        hRevived.substitute hStep.1 hFresh.not_spent
      split
      · exact hSeq
      next element hElement =>
        have hNew := hFresh.unminted (mintKey_nodeAt hElement)
        have hNode := hSeq.substituteElement hStep.2 hNew
        have hAttrs := hNode.substituteDerived mintKey_attrsId hStep.2 hNew
        exact hAttrs.substituteDerived mintKey_childrenId hStep.2 hNew
  | ranged start stop name payload was =>
    have hRevived := (Emitted.reviveRanged r start stop name payload).revives h
    simp only [Tracked.emitInverse]
    split
    next hNone =>
      rw [hNone] at hRevived
      exact hRevived
    next now r' hSome =>
      rw [hSome] at hRevived
      obtain ⟨stamp, hFresh, rfl⟩ := fresh_of_reviveRanged hSome
      have hNew := hFresh.unminted (mintKey_rangedId stamp)
      have hPayload {r' : Tracked} (hr' : Revives r r') (kind : ElementKind) :
          Revives r (r'.substituteElement (payloadId was kind) (payloadId (rangedId stamp) kind)) :=
        hr'.substituteDerived (mintKey_payloadId · kind) hStep hNew
      exact hPayload (hPayload (hPayload (hRevived.substituteElement hStep hNew) .map) .list) .text

omit [IdBytes] [Zones] in
/-- The ops that put a container back are steps of the plan, and no reveal is among them. -/
theorem authored_installersOf {plan : List Inverse} (hPlan : ∀ step ∈ plan, step.Sound r.doc) :
    AllEntries (fun _ (install : ElementId × OpKind) => Authored install.2) (installersOf plan) := by
  have hFold (found : List (ElementId × ElementId × OpKind)) (hFound : ∀ f ∈ found, Authored f.2.2)
      {installers : Registry (ElementId × OpKind)}
      (h : AllEntries (fun _ (install : ElementId × OpKind) => Authored install.2) installers) :
      AllEntries (fun _ (install : ElementId × OpKind) => Authored install.2)
        (found.foldl (fun installers f => installers.insert f.1 f.2) installers) := by
    induction found generalizing installers with
    | nil => exact h
    | cons f found ih =>
      exact ih (fun other hOther => hFound other (List.mem_cons_of_mem _ hOther))
        (h.insert (hFound f List.mem_cons_self))
  refine hFold _ (fun f hf => ?_) AllEntries.empty
  obtain ⟨step, hStep, hInstalls⟩ := List.mem_filterMap.mp hf
  cases step with
  | op target kind =>
    obtain ⟨id, -, rfl⟩ := Option.map_eq_some_iff.mp hInstalls
    exact hPlan _ hStep
  | _ => cases hInstalls

omit [IdBytes] [Zones] in
theorem authored_reinstatements {c : Content} {target : ElementId}
    {installers : Registry (ElementId × OpKind)}
    (h : AllEntries (fun _ (install : ElementId × OpKind) => Authored install.2) installers) :
    ∀ link ∈ c.reinstatements target installers, Authored link.2 := by
  have hLoop (steps : Nat) (cur : ElementId) :
      ∀ link ∈ c.reinstateLoop installers steps cur, Authored link.2 := by
    induction steps generalizing cur with
    | zero => exact List.forall_mem_nil _
    | succ steps ih =>
      intro link hLink
      rcases List.mem_append.mp hLink with hHere | hAbove
      · exact h cur link (Option.mem_toList.mp hHere)
      · split at hAbove
        · cases hAbove
        · split at hAbove
          next parent _ => exact ih parent link hAbove
          · cases hAbove
  exact fun link hLink => hLoop _ target link (List.mem_reverse.mp hLink)

theorem Sound.replayStep (h : r.Sound) {installers : Registry (ElementId × OpKind)}
    (hInstallers : AllEntries (fun _ (install : ElementId × OpKind) => Authored install.2) installers)
    {step : Inverse} (hStep : step.Sound r.doc) :
    (replayStep installers r step).Sound ∧ r.doc.Extends (replayStep installers r step).doc := by
  have hEmit {r' : Tracked} (hr' : r'.Sound ∧ r.doc.Extends r'.doc) (held : Bool) :
      (if held then r'.emitInverse step else r').Sound ∧
        r.doc.Extends (if held then r'.emitInverse step else r').doc := by
    cases held with
    | false => exact hr'
    | true =>
      have hRevives := hr'.1.emitInverse (hStep.mono hr'.2)
      exact ⟨hRevives.sound, hr'.2.trans hRevives.grown⟩
  unfold Tracked.replayStep
  refine hEmit ?_ _
  split
  · exact ⟨h, .refl _⟩
  · exact (Emitted.reinstate r (authored_reinstatements hInstallers)).sound h fun kind hKind =>
      hKind.brings _

theorem Sound.emitPlan (h : r.Sound) {steps : List Inverse}
    (hSteps : ∀ step ∈ steps, step.Sound r.doc) :
    (r.emitPlan steps).Sound ∧ r.doc.Extends (r.emitPlan steps).doc := by
  have hPlan : ∀ step ∈ r.doc.content.plan steps, step.Sound r.doc := fun step hStep =>
    hSteps step (List.mem_reverse.mp (List.mem_of_mem_filter hStep))
  have hFold (plan : List Inverse) (installers : Registry (ElementId × OpKind)) {r : Tracked}
      (h : r.Sound) (hPlan : ∀ step ∈ plan, step.Sound r.doc)
      (hInstallers : AllEntries (fun _ (install : ElementId × OpKind) => Authored install.2)
          installers) :
      (plan.foldl (Tracked.replayStep installers) r).Sound ∧
        r.doc.Extends (plan.foldl (Tracked.replayStep installers) r).doc := by
    induction plan generalizing r with
    | nil => exact ⟨h, .refl _⟩
    | cons step plan ih =>
      obtain ⟨hSound, hExtends⟩ := h.replayStep hInstallers (hPlan step List.mem_cons_self)
      obtain ⟨hLast, hAll⟩ := ih hSound fun other hOther =>
        (hPlan other (List.mem_cons_of_mem _ hOther)).mono hExtends
      exact ⟨hLast, hExtends.trans hAll⟩
  exact hFold _ _ h hPlan (authored_installersOf hPlan)

/-! ### Gestures -/

omit [IdBytes] [Zones] in
theorem grounded_congr {d d' : Document Content} (h : d.Grounded) (hCovers : d'.Covers)
    (hClient : d'.client = d.client) (hContent : d'.content = d.content)
        (hBuffer : d'.buffer = d.buffer) :
    d'.Grounded := by
  refine ⟨hCovers, ?_, ?_⟩
  · rw [hContent, hClient]
    exact h.known
  · rw [hBuffer, hClient]
    exact h.buffer

omit [Zones] in
theorem Sound.closeTransact (h : r.Sound) : r.closeTransact.2.Sound ∧
    r.doc.Extends r.closeTransact.2.doc := by
  have hDrained := h.doc.drainBuffer
  have hExtends := (Document.settles_drainBuffer r.doc).extends
  have hHistory := h.history.mono hExtends
  unfold Tracked.closeTransact
  dsimp only
  have hClosed (doc : Document Content) (hDoc : r.doc.drainBuffer.Extends doc) :
      (if ({ r.doc.drainBuffer with pending := [] } : Document Content).recordingIntention then
          r.history
        else r.history.close false).Sound doc := by
    split
    · exact hHistory.mono hDoc
    · exact (hHistory.close false).mono hDoc
  split
  next acc hAtomic =>
    have hGathered := hDrained.covers.gather hAtomic
    exact ⟨⟨grounded_congr hDrained hGathered rfl rfl rfl, hClosed _ ⟨rfl, fun _ => le_rfl⟩⟩,
      hExtends.trans ⟨rfl, fun _ => le_rfl⟩⟩
  · exact ⟨⟨grounded_congr hDrained hDrained.covers.closed rfl rfl rfl,
      hClosed _ ⟨rfl, fun _ => le_rfl⟩⟩,
      hExtends.trans ⟨rfl, fun _ => le_rfl⟩⟩

variable [TxDigest]

omit [Zones] in
theorem Sound.commitAtomic (h : r.Sound) : r.commitAtomic.2.Sound ∧
    r.doc.Extends r.commitAtomic.2.doc := by
  have hExtends : r.doc.Extends r.doc.commitAtomic.2 := by
    unfold Document.commitAtomic
    split
    · exact .refl _
    next ops _ =>
      have hTagged := (Document.settles_tagAtomic { r.doc with atomic := none } ops).extends
      exact ⟨hTagged.client, hTagged.highWater⟩
  unfold Tracked.commitAtomic
  split
  · exact ⟨h, .refl _⟩
  · refine ⟨⟨?_, (h.history.mono hExtends).close true⟩, hExtends⟩
    exact Document.grounded_of_upholds h.doc.covers.commitAtomic.1 hExtends.client
      ((Document.carried_known r.doc.client).commitAtomic h.doc.upholds)

omit [IdBytes] [Zones] [TxDigest] in
theorem extends_beginAtomic (d : Document Content) : d.Extends d.beginAtomic := by
  unfold Document.beginAtomic
  split
  · exact .refl d
  · exact ⟨rfl, fun _ => le_rfl⟩

omit [Zones] [TxDigest] in
theorem Sound.openReplay (h : r.Sound) (i : Intention Inverse) (landing : Landing) :
    (r.openReplay i landing).Sound ∧ r.doc.Extends (r.openReplay i landing).doc := by
  have hExtends : r.doc.Extends (r.doc.openReplay i.atomic) := by
    unfold Document.openReplay
    cases i.atomic with
    | false => exact ⟨rfl, fun _ => le_rfl⟩
    | true =>
      have hBegun := extends_beginAtomic { r.doc with mintRefused := false, pending := [] }
      exact ⟨hBegun.client, hBegun.highWater⟩
  have hHistory := h.history.mono hExtends
  refine ⟨⟨?_, ⟨hHistory.toChained.congr rfl rfl, hHistory.opened, hHistory.stacked⟩⟩, hExtends⟩
  exact Document.grounded_of_upholds (h.doc.covers.openReplay i.atomic) hExtends.client
    ((Document.carried_known r.doc.client).openReplay h.doc.upholds i.atomic)

theorem Sound.replay (h : r.Sound) {i : Intention Inverse} (hSteps : ∀ step ∈ i.steps, step.Sound r.doc)
    (landing : Landing) : (r.replay i landing).2.Sound ∧ r.doc.Extends (r.replay i landing).2.doc := by
  obtain ⟨hOpened, hOpen⟩ := h.openReplay i landing
  obtain ⟨hEmitted, hEmit⟩ := hOpened.emitPlan fun step hStep => (hSteps step hStep).mono hOpen
  have hEnded {r' : Tracked} (hr' : r'.Sound ∧ r.doc.Extends r'.doc) :
      Sound { r' with history := (r'.history.endReplay (r.history.origin, r.history.landing)).prune } ∧
        r.doc.Extends r'.doc := by
    refine ⟨⟨hr'.1.doc, History.Sound.prune ?_⟩, hr'.2⟩
    exact ⟨hr'.1.history.toChained.congr rfl rfl, hr'.1.history.opened, hr'.1.history.stacked⟩
  generalize hPlanned : (r.openReplay i landing).emitPlan i.steps = planned at hEmitted hEmit
  have hDrained := hEmitted.doc.drainBuffer
  have hDrain := (Document.settles_drainBuffer planned.doc).extends
  have hHistory := hEmitted.history.mono hDrain
  have hAll := (hOpen.trans hEmit).trans hDrain
  unfold Tracked.replay
  dsimp only
  rw [hPlanned]
  cases i.atomic with
  | false =>
    have hClosed : planned.doc.drainBuffer.Extends { planned.doc.drainBuffer with pending := [] } :=
      ⟨rfl, fun _ => le_rfl⟩
    have hSound : Sound ⟨{ planned.doc.drainBuffer with pending := [] }, planned.history.close false⟩ :=
      ⟨grounded_congr hDrained hDrained.covers.closed rfl rfl rfl, (hHistory.mono hClosed).close false⟩
    exact hEnded ⟨hSound, hAll.trans hClosed⟩
  | true =>
    have hGathered : ({ planned.doc.drainBuffer with
        pending := [], atomic := some (planned.doc.drainBuffer.atomic.getD [] ++
          planned.doc.drainBuffer.pending) } : Document Content).Covers := by
      refine ⟨hDrained.covers.content, hDrained.covers.buffer, ?_⟩
      simpa using hDrained.covers.gathered
    have hSound : Sound ⟨{ planned.doc.drainBuffer with
        pending := [], atomic := some (planned.doc.drainBuffer.atomic.getD [] ++
          planned.doc.drainBuffer.pending) }, planned.history⟩ :=
      ⟨grounded_congr hDrained hGathered rfl rfl rfl, hHistory.mono ⟨rfl, fun _ => le_rfl⟩⟩
    obtain ⟨hCommitted, hCommit⟩ := hSound.commitAtomic
    refine hEnded ⟨hCommitted, hAll.trans ?_⟩
    exact ⟨hCommit.client, hCommit.highWater⟩

/-- The edits of a gesture and the op it delivers reveal no node of this replica's own. -/
def Gesture.Brings (client : ClientId) : Gesture → Prop
  | .transact edits => ∀ e ∈ edits, e.2.Brings client
  | .apply op => op.kind.Brings client
  | _ => True

theorem Sound.turn (h : r.Sound) (o : Bytes) (landing : Landing) :
    ((r.turn o landing).getD ([], r)).2.Sound ∧ r.doc.Extends
        ((r.turn o landing).getD ([], r)).2.doc := by
  cases hTurned : r.turn o landing with
  | none => exact ⟨h, .refl _⟩
  | some turned =>
    rw [turn_eq] at hTurned
    split at hTurned
    · cases hTurned
    obtain ⟨⟨i, history⟩, hTake, rfl⟩ := Option.map_eq_some_iff.mp hTurned
    have hTakes := History.take_spec hTake
    obtain ⟨-, -, -, hOpened, hRevived, hElements⟩ := hTakes.kept
    have hTaken : Sound { r with history } := by
      refine ⟨h.doc, h.history.toChained.congr hRevived hElements, ?_, fun other hOther => ?_⟩
      · exact hOpened ▸ h.history.opened
      · exact h.history.stacked other (hTakes.subset other hOther)
    have hIn : i ∈ r.history.undo ++ r.history.redo := by
      have hOwn : i ∈ r.history.own o landing := hTakes.own ▸ List.mem_cons_self
      have hStack := List.mem_of_mem_filter hOwn
      cases landing with
      | undo => exact List.mem_append_left _ hStack
      | redo => exact List.mem_append_right _ hStack
    exact hTaken.replay (h.history.stacked i hIn) landing.other

/-- The step: a gesture keeps everything held and everything recorded on the record. -/
theorem Sound.act (h : r.Sound) {g : Gesture} (hBrings : g.Brings r.doc.client) :
    (r.act g).2.Sound ∧ r.doc.Extends (r.act g).2.doc := by
  have hClose (doc : Document Content) (hDoc : doc.Grounded) (hExtends : r.doc.Extends doc)
      (atomic : Bool) :
      Sound ⟨doc, r.history.close atomic⟩ := ⟨hDoc, (h.history.mono hExtends).close atomic⟩
  have hQuiet {doc : Document Content} (hCovers : doc.Covers) (hClient : doc.client = r.doc.client)
      (hContent : doc.content = r.doc.content) (hBuffer : doc.buffer = r.doc.buffer)
      (hHigh : ∀ client, r.doc.highWater client ≤ doc.highWater client) :
      doc.Grounded ∧ r.doc.Extends doc :=
    ⟨grounded_congr h.doc hCovers hClient hContent hBuffer, hClient, hHigh⟩
  cases g with
  | setUndoOrigin origin =>
    have hTracked {history : History Inverse} (hHistory : history.Sound r.doc) :
        Sound ⟨r.doc, { history with origin := some origin }⟩ :=
      ⟨h.doc, hHistory.toChained.congr rfl rfl, hHistory.opened, hHistory.stacked⟩
    refine ⟨?_, .refl _⟩
    change Sound ⟨r.doc, r.history.track origin⟩
    unfold History.track
    dsimp only
    split
    · exact hTracked (h.history.close false)
    · exact hTracked h.history
  | clearUndoOrigin =>
    have hHistory := h.history.close false
    exact ⟨⟨h.doc, hHistory.toChained.congr rfl rfl, hHistory.opened, hHistory.stacked⟩, .refl _⟩
  | transact edits =>
    have hOpened : r.openTransact.Sound := by
      refine ⟨?_, h.history.mono ⟨rfl, fun _ => le_rfl⟩⟩
      exact grounded_congr h.doc h.doc.covers.openTransact rfl rfl rfl
    obtain ⟨hEmitted, hEmit⟩ := (Emitted.emitAll r.openTransact hBrings).sound hOpened fun _ => id
    obtain ⟨hClosed, hClosing⟩ := hEmitted.closeTransact
    have hOpening : r.doc.Extends (r.openTransact.emitAll edits).doc := ⟨hEmit.client, hEmit.highWater⟩
    exact ⟨hClosed, hOpening.trans hClosing⟩
  | beginIntention =>
    obtain ⟨hDoc, hExtends⟩ : r.doc.beginIntention.Grounded ∧ r.doc.Extends r.doc.beginIntention := hQuiet
      ⟨h.doc.covers.content, h.doc.covers.buffer, h.doc.covers.gathered⟩ rfl rfl rfl fun _ => le_rfl
    exact ⟨⟨hDoc, h.history.mono hExtends⟩, hExtends⟩
  | endIntention =>
    obtain ⟨hDoc, hExtends⟩ : r.doc.endIntention.Grounded ∧ r.doc.Extends r.doc.endIntention := hQuiet
      ⟨h.doc.covers.content, h.doc.covers.buffer, h.doc.covers.gathered⟩ rfl rfl rfl fun _ => le_rfl
    refine ⟨?_, hExtends⟩
    change (r.endIntention).Sound
    unfold endIntention
    dsimp only
    split
    · exact ⟨hDoc, h.history.mono hExtends⟩
    · exact hClose _ hDoc hExtends false
  | beginAtomic =>
    have hExtends := extends_beginAtomic r.doc
    refine ⟨⟨?_, h.history.mono hExtends⟩, hExtends⟩
    exact Document.grounded_of_upholds h.doc.covers.beginAtomic hExtends.client
      ((Document.carried_known r.doc.client).beginAtomic h.doc.upholds)
  | commitAtomic => exact h.commitAtomic
  | undo origin => exact h.turn origin .undo
  | redo origin => exact h.turn origin .redo
  | apply op =>
    have hExtends := (Document.settles_apply r.doc op).extends
    refine ⟨⟨?_, h.history.mono hExtends⟩, hExtends⟩
    exact Document.grounded_of_upholds (h.doc.covers.apply op) hExtends.client
      ((Document.carried_known r.doc.client).apply h.doc.upholds fun _ => hBrings)
  | evictPartialTransactions =>
    have hExtends := (Document.settles_evictPartialTransactions r.doc).extends
    refine ⟨⟨?_, h.history.mono hExtends⟩, hExtends⟩
    exact Document.grounded_of_upholds h.doc.covers.evictPartialTransactions hExtends.client
      ((Document.carried_known r.doc.client).evictPartialTransactions h.doc.upholds)

theorem sound_run (client : ClientId) {gestures : List Gesture}
    (hBrings : ∀ g ∈ gestures, g.Brings client) : ((new client).run gestures).2.Sound := by
  have hRun (r : Tracked) (h : r.Sound) (hClient : r.doc.client = client) :
      (r.run gestures).2.Sound := by
    induction gestures generalizing r with
    | nil => exact h
    | cons g gestures ih =>
      obtain ⟨hSound, hExtends⟩ := h.act (hClient.symm ▸ hBrings g List.mem_cons_self)
      exact ih (fun other hOther => hBrings other (List.mem_cons_of_mem _ hOther)) _ hSound
        (hExtends.client.trans hClient)
  have hNone {κ : Type} : Acyclic fun _ : κ => (none : Option κ) := fun a => Above.not_of_orphan rfl
  have hNext (seq : ElementId) : (History.empty (α := Inverse)).nextIn seq = fun _ => none :=
    funext fun _ => ExtTreeMap.getElem?_empty
  have hElement : (History.empty (α := Inverse)).nextElement = fun _ => none :=
    funext fun _ => ExtTreeMap.getElem?_empty
  refine hRun _ ⟨⟨Document.covers_new client, Content.known_new _, List.forall_mem_nil _⟩,
    ⟨⟨fun seq was hWas => absurd (congrFun (hNext seq) was) hWas,
      fun was hWas => absurd (congrFun hElement was) hWas, fun seq => ?_, ?_⟩,
      List.forall_mem_nil _, List.forall_mem_nil _⟩⟩ rfl
  · exact (hNext seq).symm ▸ hNone
  · exact hElement.symm ▸ hNone

/-- The stacks of a replica answer each other, each origin's apart from every other's. -/
structure Balanced (r : Tracked) : Prop where
  answers : ∀ {o undone mirrors redone back r' r''}, TurnsAll o .undo r undone mirrors r' →
    TurnsAll o .redo r' redone back r'' → Answers o r undone mirrors r'' redone
  turns : ∀ {o landing ops r'}, r.turn o landing = some (ops, r') → ∃ i m, r.Turns o landing i m r'
  apart : ∀ (g : Gesture) (o : Bytes) (landing : Landing), ¬g.isOf r o →
    (r.act g).2.history.own o landing = r.history.own o landing
  fresh : ∀ {g : Gesture}, g.isFresh → ∀ o, r.history.Advances (r.act g).2.history o
  inert : ∀ o landing, r.turn o landing = none ↔
    r.doc.recordingIntention = true ∨ r.history.own o landing = []

/-- Following a chain of revivals ends where nothing has been replaced. -/
structure ChainsEnd (r : Tracked) : Prop where
  items : ∀ seq id, ChainEnds (r.history.nextIn seq) id (r.history.current seq id)
  elements : ∀ id, ChainEnds r.history.nextElement id (r.history.currentElement id)

/-- In every state of every run of recorded edits, undos and redos the stacks are in balance, and the
chains of revivals end. -/
theorem history_balance (client : ClientId) (gestures : List Gesture) :
    ((new client).run gestures).2.Balanced ∧
      ((∀ g ∈ gestures, g.Brings client) → ((new client).run gestures).2.ChainsEnd) := by
  have hSettled := settled_run client gestures
  constructor
  · exact ⟨fun hUndos hRedos => hUndos.answers hRedos hSettled, turns_of_turn,
      fun g o landing => (hSettled.act g).2 o landing, fun hFresh => (hSettled.fresh hFresh).2,
      fun _ _ => turn_eq_none⟩
  · intro hBrings
    obtain ⟨-, hHistory⟩ := sound_run client hBrings
    exact ⟨fun seq id => History.current_ends (hHistory.chains seq) id,
      History.currentElement_ends hHistory.elementChains⟩

end Emissions

section Examples

local instance chainIdBytes : IdBytes := IdBytes.spelled
local instance chainTxDigest : TxDigest := ⟨List.sum⟩
local instance chainZones : Zones := ⟨fun _ _ _ => none⟩

def notes : ElementId := .derive ROOT_ID [110] .list

/-- An item deleted, undone, deleted again and undone again. -/
def revivedTwice : List Gesture :=
  [.setUndoOrigin [1], .transact [(ROOT_ID, .listCreate [110])],
    .transact [(notes, .listInsert (.int 7) ⟨none, .right⟩)],
    .transact [(notes, .listDelete ⟨2, ⟨1⟩, 0⟩)], .undo [1], .redo [1], .undo [1]]

theorem history_balance_revivedTwice :
    ((new ⟨1⟩).run revivedTwice).2.Balanced ∧ ((new ⟨1⟩).run revivedTwice).2.ChainsEnd := by
  refine (history_balance ⟨1⟩ revivedTwice).imp_right fun hEnds => hEnds ?_
  simp [revivedTwice, Gesture.Brings, OpKind.Brings]

/-- Both revivals re-minted the item, and its first id leads to the last one. -/
example : (((new ⟨1⟩).run revivedTwice).2.history.current notes ⟨2, ⟨1⟩, 0⟩,
    ((new ⟨1⟩).run revivedTwice).2.history.revived.size) = (⟨6, ⟨1⟩, 0⟩, 2) := by
  decide +kernel

end Examples

end Tracked

end CrdtSync
