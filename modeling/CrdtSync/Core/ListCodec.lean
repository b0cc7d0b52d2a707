import CrdtSync.Core.CanonicalOps
import CrdtSync.Core.Element
import CrdtSync.Core.FugueCanonical

/-!
# The state of a sequence

The bytes a sequence is snapshotted as: its nodes in full, then its deleted ids as
runs, a long run split into chained records. A decoder refuses an id it holds already,
and welds what was split. Every list the operations and the decoder build is in
canonical form, so its bytes are settled by what it holds of each id.
-/

namespace CrdtSync

open Lib Codec
open Std (ExtTreeMap)

/-- The most ids one encoded run record may cover. -/
def MAX_TOMBSTONE_RUN : Nat := 2 ^ 20

/-- A decoded node that is a composite: its stamp, and the kind and id to resolve. -/
abbrev NodeRef := Stamp × ElementKind × ElementId

section Encode

variable [IdHash]

/-- A scalar inline, a composite as its kind and id. A register is never a node. -/
def putNodeValue : Element → Bytes
  | .scalar s => UInt8.ofNat ElementKind.scalar.tag :: putScalar s
  | .register _ => []
  | .handle kind id => UInt8.ofNat kind.tag :: putElementId id

def putNode (n : Stamp × Element × Anchor) : Bytes :=
  putStamp n.1 ++ (putNodeValue n.2.1 ++ putAnchor n.2.2)

def putRun (r : Stamp × Nat × Anchor) : Bytes := putStamp r.1 ++ (putU32 r.2.1 ++ putAnchor r.2.2)

namespace FugueList

/-- The nodes in stamp order. -/
def liveRecords {V : Type} (l : FugueList V) : List (Stamp × V × Anchor) :=
  (l.nodes.toList.map fun (key, n) => (seqStamp key, n.value, n.anchor)).insertionSort
    fun a b => a.1 ≤ b.1

def runRecords {V : Type} (l : FugueList V) : List (Stamp × Nat × Anchor) :=
  (l.dead.toList.map fun (key, run) => (seqStamp key, run.len, run.anchor)).insertionSort
    fun a b => a.1 ≤ b.1

/-- A run from its `off`-th id on, split into records of at most `MAX_TOMBSTONE_RUN` ids. -/
def chunks (start : Stamp) (len : Nat) (anchor : Anchor) (off : Nat) : Nat → List (Stamp × Nat × Anchor)
  | 0 => []
  | fuel + 1 =>
    if off < len then
      let chunkLen := min (len - off) MAX_TOMBSTONE_RUN
      let chunkAnchor : Anchor := if off = 0 then anchor else ⟨some (runId start (off - 1)), .right⟩
      (runId start off, chunkLen, chunkAnchor) :: chunks start len anchor (off + chunkLen) fuel
    else []

def chunkRecords {V : Type} (l : FugueList V) : List (Stamp × Nat × Anchor) :=
  l.runRecords.flatMap fun (start, len, anchor) => chunks start len anchor 0 len

/-- `none` is the panic on a count its length field cannot hold. -/
def encodeState (l : FugueList Element) : Option Bytes :=
  if l.liveRecords.length < 2 ^ 32 ∧ l.chunkRecords.length < 2 ^ 32 then
    some (putElementId l.id ++ (putU32 l.liveRecords.length ++ (l.liveRecords.flatMap putNode ++
      (putU32 l.chunkRecords.length ++ l.chunkRecords.flatMap putRun))))
  else none

end FugueList

end Encode

section Decode

/-- A scalar, or a placeholder and the composite to resolve it to. -/
def listNodeValue : Reader (Element × Option (ElementKind × ElementId)) := do
  match ← u8 with
  | 0 => (fun s => (.scalar s, none)) <$> Codec.scalar
  | tag =>
    match kindFromTag tag with
    | some .scalar | some .register | none => badTag "list node value" tag
    | some kind => (fun id => (.scalar .null, some (kind, id))) <$> elementId

def tombstoneRun : Reader (Stamp × Nat × Anchor) := do
  let start ← stamp
  let length ← u32
  let anchor ← anchor
  if length = 0 ∨ MAX_TOMBSTONE_RUN < length then badTag "list: tombstone run length" 0
  else pure (start, length, anchor)

namespace FugueList

/-- Whether any id from `start` through lamport `last` is stored. -/
def holdsAny {V : Type} (l : FugueList V) (start : Stamp) (last : Nat) : Bool :=
  (Runs.deadRun l.dead start).isSome ||
    (firstAtLeast l.nodes (seqKey start)).any (fun e => e.1 ≤ ⟨start.client, start.offset, last⟩) ||
    (firstAtLeast l.dead (seqKey start)).any (fun e => e.1 ≤ ⟨start.client, start.offset, last⟩)

/-- The nodes of the stream, each read and installed before the next. -/
def readNodes (l : FugueList Element) (refs : List NodeRef) : Nat → Reader (FugueList Element × List NodeRef)
  | 0 => pure (l, refs)
  | count + 1 => do
    let id ← stamp
    let (value, ref) ← listNodeValue
    let anchor ← anchor
    if l.nodes.contains (seqKey id) then badTag "list: duplicate node id" 0
    else
      readNodes { l with nodes := l.nodes.insert (seqKey id) ⟨value, anchor, false⟩ }
        (refs ++ ref.toList.map fun (kind, child) => (id, kind, child)) count

/-- The run records of the stream, each refused where its ids overflow or are held. -/
def installRuns (l : FugueList Element) : List (Stamp × Nat × Anchor) → Except DecodeError (FugueList Element)
  | [] => .ok l
  | (start, length, anchor) :: runs =>
    match checkedAdd start.lamport (length - 1) with
    | none => .error (.badTag "list: tombstone run overflows lamport" 0)
    | some last =>
      if l.holdsAny start last then .error (.badTag "list: duplicate node id" 0)
      else installRuns { l with dead := Runs.addDead l.dead start length anchor } runs

/-- A sequence, and the composite nodes that hold a placeholder until they are resolved. -/
def decodeStateFrom : Reader (FugueList Element × List NodeRef) := do
  let id ← elementId
  let liveCount ← u32
  let (l, refs) ← readNodes (new id) [] liveCount
  let runCount ← u32
  let runs ← Cursor.times tombstoneRun runCount
  match l.installRuns runs with
  | .error e => throw e
  | .ok l => pure (l, refs)

/-- A list of scalars from exactly these bytes. -/
def decodeState (input : Bytes) : Except DecodeError (FugueList Element) :=
  match decodeStateFrom.run input with
  | .error e => .error e
  | .ok ((l, refs), rest) =>
    if ¬refs.isEmpty then .error (.badTag "bare list: composite node reference" 0)
    else if rest.isEmpty then .ok l
    else .error .trailingBytes

def resolveNode {V : Type} (l : FugueList V) (id : Stamp) (value : V) : FugueList V :=
  match l.nodes[seqKey id]? with
  | some node => { l with nodes := l.nodes.insert (seqKey id) { node with value } }
  | none => l

end FugueList

end Decode

namespace FugueList

open Runs

section Decoded

variable {V : Type} {l : FugueList V}

theorem Canonical.resolveNode (h : l.Canonical) (id : Stamp) (value : V) :
    (l.resolveNode id value).Canonical := by
  unfold FugueList.resolveNode
  split
  next node hNode =>
    refine h.rewrites (h.wf.insert_node (h.wf.apart id node hNode) _).rewrites h.maximal ?_
    rintro x rfl -
    refine h.sized x ?_
    rw [cellAt_of_node hNode]
    exact Option.some_ne_none _
  next => exact h

/-- No id of a stretch of which nothing is stored is held. -/
theorem Canonical.vacant_of_holdsAny (h : l.Canonical) {start : Stamp} {len : Nat} (hPos : 0 < len)
    (hNone : l.holdsAny start (start.lamport + (len - 1)) = false) {x : Stamp}
    (hx : covers start len x = true) : l.cellAt x = none := by
  obtain ⟨hClient, hOffset, hLow, hHigh⟩ := covers_iff.mp hx
  have hFrom : seqKey start ≤ seqKey x := by
    rw [SeqKey.le_iff]
    exact .inr ⟨hClient, .inr ⟨hOffset, hLow⟩⟩
  have hTo : seqKey x ≤ ⟨start.client, start.offset, start.lamport + (len - 1)⟩ := by
    rw [SeqKey.le_iff]
    exact .inr ⟨hClient.symm, .inr ⟨hOffset.symm, by simp only [seqKey]; omega⟩⟩
  -- A key in the range would be found by the search from its start.
  have hRange : ∀ {W : Type} (m : ExtTreeMap SeqKey W compare),
      (firstAtLeast m (seqKey start)).any
        (fun e => e.1 ≤ ⟨start.client, start.offset, start.lamport + (len - 1)⟩) = false →
      ∀ key w, m[key]? = some w → seqKey start ≤ key → key ≤ seqKey x → False := by
    intro W m hFirst key w hKey hLe hUp
    cases hAt : firstAtLeast m (seqKey start) with
    | none => exact absurd (firstAtLeast_eq_none.mp hAt key w hKey) (not_lt.mpr hLe)
    | some e =>
      obtain ⟨-, -, hMin⟩ := firstAtLeast_eq_some (show _ = some (e.1, e.2) from hAt)
      rw [hAt, Option.any_some, decide_eq_false_iff_not] at hFirst
      exact hFirst (((hMin key w hKey hLe).trans hUp).trans hTo)
  simp only [holdsAny, Bool.or_eq_false_iff] at hNone
  obtain ⟨⟨hRun, hNodes⟩, hRuns⟩ := hNone
  rw [cellAt_eq_none, h.wf.runs.deadAnchorOf_eq_none]
  constructor
  · cases hn : l.nodes[seqKey x]? with
    | none => rfl
    | some n => exact (hRange l.nodes hNodes _ n hn hFrom le_rfl).elim
  · rintro head run ⟨hEntry, hCovers⟩
    obtain ⟨hClient', hOffset', hLow', hHigh'⟩ := covers_iff.mp hCovers
    rcases Nat.lt_or_ge start.lamport head.lamport with hAfter | hBefore
    · refine hRange l.dead hRuns _ run hEntry ?_ ?_
      · rw [SeqKey.le_iff]
        exact .inr ⟨hClient.trans hClient'.symm, .inr ⟨hOffset.trans hOffset'.symm, hAfter.le⟩⟩
      · rw [SeqKey.le_iff]
        exact .inr ⟨hClient', .inr ⟨hOffset', hLow'⟩⟩
    · have hHeld : Holds l.dead head run start := ⟨hEntry, covers_iff.mpr
        ⟨hClient'.trans hClient.symm, hOffset'.trans hOffset.symm, hBefore, by omega⟩⟩
      rw [h.wf.runs.deadRun_eq_some.mpr hHeld] at hRun
      cases hRun

/-- Installing a run of ids never seen. -/
theorem Canonical.install (h : l.Canonical) {start : Stamp} {len : Nat} (hPos : 0 < len)
    (hLast : start.lamport + (len - 1) ≤ u64Max)
    (hVacant : ∀ x, covers start len x = true → l.cellAt x = none) (anchor : Anchor) :
    ({ l with dead := addDead l.dead start len anchor } : FugueList V).Canonical := by
  refine h.rewrites (h.wf.bury_unseen hPos hVacant anchor) ?_ ?_
  · refine h.maximal.addDead ⟨h.wf.runs, hPos, fun x hx => ?_⟩ h.runsSized anchor
    exact (cellAt_eq_none.mp (hVacant x hx)).2
  · intro x hx _
    obtain ⟨-, -, -, hHigh⟩ := covers_iff.mp hx
    omega

end Decoded

variable {l l' : FugueList Element}

theorem Canonical.installRuns (h : l.Canonical) {runs : List (Stamp × Nat × Anchor)}
    (hPos : ∀ r ∈ runs, 0 < r.2.1) (hInstall : l.installRuns runs = .ok l') : l'.Canonical := by
  induction runs generalizing l with
  | nil =>
    cases hInstall
    exact h
  | cons r runs ih =>
    obtain ⟨start, length, anchor⟩ := r
    obtain ⟨hFirst, hRest⟩ := List.forall_mem_cons.mp hPos
    rw [FugueList.installRuns] at hInstall
    split at hInstall
    next => cases hInstall
    next last hAdd =>
      obtain ⟨rfl, hLast⟩ := checkedAdd_eq_some.mp hAdd
      split at hInstall
      next => cases hInstall
      next hNone =>
        have hVacant := fun x => h.vacant_of_holdsAny (x := x) hFirst (Bool.eq_false_iff.mpr hNone)
        exact ih (h.install hFirst hLast hVacant anchor) hRest hInstall

theorem Canonical.readNodes (h : l.Canonical) (hDead : l.dead = ∅) {count : Nat}
    {refs refs' : List NodeRef} {input rest : Bytes}
    (hRun : (l.readNodes refs count).run input = .ok ((l', refs'), rest)) : l'.Canonical := by
  induction count generalizing l refs input with
  | zero =>
    cases hRun
    exact h
  | succ count ih =>
    rw [FugueList.readNodes] at hRun
    obtain ⟨id, mid, hId, hRun⟩ := Cursor.run_bind_eq_ok hRun
    obtain ⟨⟨value, ref⟩, mid', -, hRun⟩ := Cursor.run_bind_eq_ok hRun
    obtain ⟨anchor, mid'', -, hRun⟩ := Cursor.run_bind_eq_ok hRun
    dsimp only at hRun
    split at hRun
    next => cases hRun
    next =>
      obtain ⟨w, -, hFits, -⟩ := spellsStamps_stamp input id mid hId
      have hLamport : id.lamport ≤ u64Max := by
        have hBoth := of_decide_eq_true hFits
        unfold u64Max
        omega
      have hVacant : deadAnchorOf l.dead id = none := by
        rw [hDead, wf_empty.deadAnchorOf_eq_none]
        intro head run hHolds
        simp [Holds] at hHolds
      refine ih (l := { l with nodes := l.nodes.insert (seqKey id) ⟨value, anchor, false⟩ }) ?_
        hDead hRun
      refine h.rewrites (h.wf.insert_node hVacant _).rewrites h.maximal ?_
      rintro x rfl -
      exact hLamport

theorem canonical_of_decode {refs : List NodeRef} {input rest : Bytes}
    (hRun : decodeStateFrom.run input = .ok ((l, refs), rest)) : l.Canonical := by
  obtain ⟨id, mid, -, hRun⟩ := Cursor.run_bind_eq_ok hRun
  obtain ⟨liveCount, mid, -, hRun⟩ := Cursor.run_bind_eq_ok hRun
  obtain ⟨⟨shell, refs'⟩, mid, hNodes, hRun⟩ := Cursor.run_bind_eq_ok hRun
  obtain ⟨runCount, mid, -, hRun⟩ := Cursor.run_bind_eq_ok hRun
  obtain ⟨runs, mid, hRuns, hRun⟩ := Cursor.run_bind_eq_ok hRun
  have hShell := (Canonical.new id).readNodes rfl hNodes
  have hLengths : Cursor.Spells tombstoneRun fun r _ => 0 < r.2.1 := by
    refine spellsStamps_stamp.bind fun _ _ _ => spells_u32.bind fun length _ _ => ?_
    refine (spellsStamps_stamp.anchor).bind fun _ _ _ => ?_
    split
    next => exact Cursor.Spells.throw _
    next hLength => exact Cursor.Spells.pure (Nat.pos_of_ne_zero fun hZero => hLength (.inl hZero))
  have hPos := hLengths.forall_of_times hRuns
  split at hRun
  next => cases hRun
  next l₂ hInstall =>
    cases hRun
    exact hShell.installRuns hPos hInstall

section Logical

variable {V : Type}

/-- What a list holds of an id: its anchor, and its value unless it is deleted. -/
def logical (l : FugueList V) (x : Stamp) : Option (Anchor × Option V) :=
  (l.cellAt x).map fun c => (c.anchor, c.item.map (·.value))

variable {l l' : FugueList V}

theorem WF.deadAnchorOf_eq_logical (h : l.WF) (x : Stamp) :
    deadAnchorOf l.dead x = (l.logical x).bind fun c => if c.2.isNone then some c.1 else none := by
  unfold logical cellAt
  cases hNode : l.nodes[seqKey x]? with
  | some n => exact h.apart x n hNode
  | none => cases deadAnchorOf l.dead x <;> rfl

theorem node_eq_logical (l : FugueList V) (x : Stamp) :
    l.nodes[seqKey x]?.map (fun n => (n.value, n.anchor)) =
      (l.logical x).bind fun c => c.2.map fun v => (v, c.1) := by
  unfold logical cellAt
  cases l.nodes[seqKey x]? with
  | some n => rfl
  | none => cases deadAnchorOf l.dead x <;> rfl

theorem liveRecords_eq (l : FugueList V) : l.liveRecords =
    (((l.nodes.map fun _ n => (n.value, n.anchor)).toList.map fun e => (seqStamp e.1, e.2)).insertionSort
      fun a b => a.1 ≤ b.1) := by
  rw [liveRecords, ExtTreeMap.toList_map, List.map_map]
  rfl

/-- Two canonical lists that hold the same of every id have the same records. -/
theorem Canonical.records_eq (h : l.Canonical) (h' : l'.Canonical)
    (hSame : ∀ x, l.logical x = l'.logical x) : l.liveRecords = l'.liveRecords ∧ l.dead = l'.dead := by
  constructor
  · have hNodes : l.nodes.map (fun _ n => (n.value, n.anchor)) =
        l'.nodes.map fun _ n => (n.value, n.anchor) := by
      refine ExtTreeMap.ext_getElem? fun key => ?_
      rw [ExtTreeMap.getElem?_map, ExtTreeMap.getElem?_map, ← seqKey_seqStamp key, node_eq_logical,
        node_eq_logical, hSame]
    rw [liveRecords_eq, liveRecords_eq, hNodes]
  · refine Runs.eq_of_anchors h.wf.runs h'.wf.runs h.maximal h'.maximal fun x => ?_
    rw [h.wf.deadAnchorOf_eq_logical, h'.wf.deadAnchorOf_eq_logical, hSame]

end Logical

section Reach

variable [IdBytes]

/-- A list as the operations and the decoder build it. A stamp's lamport is a `u64`. -/
inductive Reached : FugueList Element → Prop
  | new (id : ElementId) : Reached (.new id)
  | insert {l : FugueList Element} {stamp : Stamp} (h : Reached l) (hId : stamp.lamport ≤ u64Max)
      (index : Nat) (value : Element) : Reached (l.insert index value stamp)
  | insertAt {l : FugueList Element} {id : Stamp} (h : Reached l) (hId : id.lamport ≤ u64Max)
      (value : Element) (anchor : Anchor) : Reached (l.insertAt id value anchor)
  | reseat {l : FugueList Element} {id : Stamp} (h : Reached l) (hId : id.lamport ≤ u64Max)
      (value : Element) (anchor : Anchor) : Reached (l.reseat id value anchor)
  | rejoin {l : FugueList Element} {id : Stamp} (h : Reached l) (hId : id.lamport ≤ u64Max)
      (value : Element) (anchor : Anchor) : Reached (l.rejoin id value anchor)
  | delete {l : FugueList Element} (h : Reached l) (index : Nat) : Reached (l.delete index)
  | deleteId {l : FugueList Element} (h : Reached l) (id : Stamp) : Reached (l.deleteId id)
  | setMovedAway {l : FugueList Element} (h : Reached l) (id : Stamp) (away : Bool) :
      Reached (l.setMovedAway id away)
  | merge {l other : FugueList Element} (h : Reached l) (hOther : Reached other) :
      Reached (l.merge other)
  | decode {l : FugueList Element} {refs : List NodeRef} {input rest : Bytes}
      (hRun : decodeStateFrom.run input = .ok ((l, refs), rest)) : Reached l
  | resolve {l : FugueList Element} (h : Reached l) (id : Stamp) (value : Element) :
      Reached (l.resolveNode id value)

theorem Reached.canonical {l : FugueList Element} (h : Reached l) : l.Canonical := by
  induction h with
  | new id => exact .new id
  | insert _ hId index value ih => exact ih.insert hId index value
  | insertAt _ hId value anchor ih => exact ih.insertAt hId value anchor
  | reseat _ hId value anchor ih => exact ih.reseat hId value anchor
  | rejoin _ hId value anchor ih => exact ih.rejoin hId value anchor
  | delete _ index ih => exact ih.delete index
  | deleteId _ id ih => exact ih.deleteId id
  | setMovedAway _ id away ih => exact ih.setMovedAway id away
  | merge _ _ ih ihOther => exact ih.merge ihOther
  | decode hRun => exact canonical_of_decode hRun
  | resolve _ id value ih => exact ih.resolveNode id value

/-- However a list was built, no live id is deleted, no two runs share an id, no run
continues another, and its bytes are settled by its id and what it holds of each id. -/
theorem canonical_form [IdHash] {l : FugueList Element} (h : Reached l) :
    (∀ id n, l.nodes[seqKey id]? = some n → l.isTombstoned id = false) ∧
      (∀ head run head' run' id, l.dead[seqKey head]? = some run → l.dead[seqKey head']? = some run' →
        covers head run.len id = true → covers head' run'.len id = true → head = head') ∧
      (∀ head run next, l.dead[seqKey head]? = some run →
        l.dead[seqKey (runId head run.len)]? = some next →
          next.anchor ≠ ⟨some (runId head (run.len - 1)), .right⟩) ∧
      ∀ l', Reached l' → l'.id = l.id → (∀ id, l'.logical id = l.logical id) →
        l'.encodeState = l.encodeState := by
  have hCanonical := h.canonical
  refine ⟨fun id n hNode => ?_, fun head run head' run' id hRun hRun' hCovers hCovers' => ?_,
    hCanonical.maximal, fun l' h' hId hSame => ?_⟩
  · have hNone := hCanonical.wf.runs.deadAnchorOf_eq_none.mp (hCanonical.wf.apart id n hNode)
    rw [isTombstoned, hCanonical.wf.runs.deadRun_eq_none.mpr hNone]
    rfl
  · exact hCanonical.wf.runs.apart head run head' run' id ⟨hRun, hCovers⟩ ⟨hRun', hCovers'⟩
  · obtain ⟨hLive, hDead⟩ := h'.canonical.records_eq hCanonical hSame
    rw [encodeState, encodeState, hLive, hId, chunkRecords, chunkRecords, runRecords, runRecords,
      hDead]

end Reach

section Examples

local instance listIdBytes : IdBytes := IdBytes.spelled

local instance listIdHash : IdHash := ⟨fun _ _ _ => 0⟩

/-- Two neighbours typed by replica 1. -/
def typed : FugueList Element :=
  ((new (.fromBytes 0)).insertAt ⟨1, ⟨1⟩, 0⟩ (.scalar .null) ⟨none, .right⟩).insertAt ⟨2, ⟨1⟩, 0⟩
    (.scalar (.bool true)) ⟨some ⟨1, ⟨1⟩, 0⟩, .right⟩

theorem reached_typed : Reached typed :=
  ((Reached.new _).insertAt (by decide) _ _).insertAt (by decide) _ _

/-- Both deleted, in either order. -/
theorem canonical_form_typed : ((typed.deleteId ⟨1, ⟨1⟩, 0⟩).deleteId ⟨2, ⟨1⟩, 0⟩).encodeState =
    ((typed.deleteId ⟨2, ⟨1⟩, 0⟩).deleteId ⟨1, ⟨1⟩, 0⟩).encodeState := by
  refine (canonical_form ((reached_typed.deleteId ⟨2, ⟨1⟩, 0⟩).deleteId ⟨1, ⟨1⟩, 0⟩)).2.2.2 _
    ((reached_typed.deleteId ⟨1, ⟨1⟩, 0⟩).deleteId ⟨2, ⟨1⟩, 0⟩) ?_ fun x => ?_
  · decide +kernel
  · have hWF := reached_typed.canonical.wf
    have hFirst := hWF.deleteId ⟨1, ⟨1⟩, 0⟩
    have hSecond := hWF.deleteId ⟨2, ⟨1⟩, 0⟩
    unfold logical
    rw [(hFirst.wf.deleteId ⟨2, ⟨1⟩, 0⟩).cell, (hSecond.wf.deleteId ⟨1, ⟨1⟩, 0⟩).cell, hFirst.cell,
      hSecond.cell, hFirst.cell, hSecond.cell]
    have hApart : (⟨1, ⟨1⟩, 0⟩ : Stamp) ≠ ⟨2, ⟨1⟩, 0⟩ := by decide
    by_cases h₁ : x = ⟨1, ⟨1⟩, 0⟩
    · subst h₁
      simp [hApart]
    · by_cases h₂ : x = ⟨2, ⟨1⟩, 0⟩
      · subst h₂
        simp [hApart.symm]
      · simp [h₁, h₂]

end Examples

end FugueList

end CrdtSync
