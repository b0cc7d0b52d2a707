import CrdtSync.Core.ListCodec

/-!
# A sequence read back

Every list the operations build is read back from its own bytes: the nodes by their
stamps, and the runs by welding the records a long one was split into. Composites come
back as references, which resolve to what they were; which nodes moves suppressed does
not come back.
-/

namespace CrdtSync

open Lib Codec Cursor
open Std (ExtTreeMap)

section Values

def Element.fits : Element → Bool
  | .scalar s => s.fits
  | .register _ => false
  | .handle kind _ => kind != .scalar && kind != .register

variable [IdHash]

/-- The value with every id as its bytes name it. -/
def Element.raw : Element → Element
  | .scalar s => .scalar s.raw
  | .register r => .register r
  | .handle kind id => .handle kind id.raw

/-- What is read of a node's value, and what it is to be resolved to. -/
def Element.shell : Element → Element × Option (ElementKind × ElementId)
  | .scalar s => (.scalar s.raw, none)
  | .register r => (.register r, none)
  | .handle kind id => (.scalar .null, some (kind, id.raw))

theorem reads_listNodeValue {v : Element} (h : v.fits = true) :
    Reads listNodeValue (putNodeValue v) v.shell := by
  cases v with
  | scalar s => exact Codec.Reads.tagged ((reads_scalar h).map fun s => (Element.scalar s, none))
  | register r => cases h
  | handle kind id =>
    have hId := (reads_elementId id).map fun id => (Element.scalar .null, some (kind, id))
    cases kind with
    | scalar => cases h
    | register => cases h
    | counter | map | list | text | xmlElement | xmlFragment => exact Codec.Reads.tagged hId

omit [IdHash] in
theorem reads_run {start : Stamp} {length : Nat} {anchor : Anchor} (hStart : start.fits = true)
    (hLength : 0 < length ∧ length ≤ MAX_TOMBSTONE_RUN) (hAnchor : anchor.fits = true) :
    Reads tombstoneRun (putRun (start, length, anchor)) (start, length, anchor) := by
  have hWidth : length < 2 ^ 32 := hLength.2.trans_lt (by decide)
  refine (reads_stamp hStart).bind ((reads_u32 hWidth).bind ?_)
  rw [← List.append_nil (putAnchor _)]
  refine (readsStamps_stamp.anchor hAnchor).bind ?_
  rw [if_neg]
  · exact Reads.pure _
  · rintro (hZero | hOver)
    · exact hLength.1.ne' hZero
    · exact absurd hLength.2 (Nat.not_le_of_lt hOver)

end Values

namespace FugueList

open Runs

section Chunks

variable {start : Stamp} {len : Nat} {anchor : Anchor}

/-- Every record of a split run is a stretch of it, hung as the run hangs there. -/
theorem mem_chunks {off fuel : Nat} {r : Stamp × Nat × Anchor}
    (hr : r ∈ chunks start len anchor off fuel) : ∃ o n, r = (runId start o, n,
      if o = 0 then anchor else ⟨some (runId start (o - 1)), .right⟩) ∧
        off ≤ o ∧ 0 < n ∧ n ≤ MAX_TOMBSTONE_RUN ∧ o + n ≤ len := by
  induction fuel generalizing off with
  | zero => cases hr
  | succ fuel ih =>
    rw [chunks] at hr
    split at hr
    next hOff =>
      have hCap : 0 < MAX_TOMBSTONE_RUN := by decide
      obtain rfl | hRest := List.mem_cons.mp hr
      · exact ⟨off, _, rfl, le_rfl, by omega, Nat.min_le_right .., by omega⟩
      · obtain ⟨o, n, rfl, hLow, hn⟩ := ih hRest
        exact ⟨o, n, rfl, by omega, hn⟩
    next => cases hr

/-- The records of a split run cover it. -/
theorem exists_chunk {off fuel i : Nat} (hFuel : len - off ≤ fuel) (hLow : off ≤ i) (hHigh : i < len) :
    ∃ r ∈ chunks start len anchor off fuel, covers r.1 r.2.1 (runId start i) = true := by
  induction fuel generalizing off with
  | zero => omega
  | succ fuel ih =>
    rw [chunks, if_pos (by omega)]
    have hCap : 0 < MAX_TOMBSTONE_RUN := by decide
    obtain ⟨n, hn⟩ : ∃ n, n = min (len - off) MAX_TOMBSTONE_RUN := ⟨_, rfl⟩
    dsimp only
    rw [← hn]
    by_cases hHere : i < off + n
    · refine ⟨_, List.mem_cons_self, ?_⟩
      rw [covers_iff]
      simp only [runId, true_and]
      omega
    · have hFuel : len - (off + n) ≤ fuel := by omega
      obtain ⟨r, hr, hCovers⟩ := ih hFuel (by omega)
      exact ⟨r, List.mem_cons_of_mem _ hr, hCovers⟩

theorem pairwise_chunks (off fuel : Nat) : (chunks start len anchor off fuel).Pairwise fun r s =>
    ∀ x, covers r.1 r.2.1 x = true → ¬covers s.1 s.2.1 x = true := by
  induction fuel generalizing off with
  | zero => exact .nil
  | succ fuel ih =>
    rw [chunks]
    split
    next =>
      refine .cons ?_ (ih _)
      intro r hr x hx
      obtain ⟨o, n, rfl, hLow, -⟩ := mem_chunks hr
      rw [covers_iff] at hx ⊢
      simp only [runId] at hx ⊢
      omega
    next => exact .nil

theorem covers_whole {o n : Nat} {x : Stamp} (hEnd : o + n ≤ len)
    (hx : covers (runId start o) n x = true) : covers start len x = true := by
  rw [covers_iff] at hx ⊢
  simp only [runId] at hx
  exact ⟨hx.1, hx.2.1, by omega, by omega⟩

/-- A record of a split run hangs its ids where the run does. -/
theorem chainAnchor_chunk {o n : Nat} {x : Stamp} (hx : covers (runId start o) n x = true) :
    chainAnchor (runId start o) (if o = 0 then anchor else ⟨some (runId start (o - 1)), .right⟩) x =
      chainAnchor start anchor x := by
  rcases Nat.eq_zero_or_pos o with rfl | hPos
  · rw [if_pos rfl, runId_zero]
  · rw [if_neg hPos.ne']
    exact chainAnchor_add hPos hx

end Chunks

section Records

variable {V : Type} {l : FugueList V}

theorem mem_runRecords {r : Stamp × Nat × Anchor} :
    r ∈ l.runRecords ↔ l.dead[seqKey r.1]? = some ⟨r.2.1, r.2.2⟩ := by
  rw [runRecords, List.mem_insertionSort, List.mem_map, ← mem_toList_iff]
  constructor
  · rintro ⟨e, he, rfl⟩
    exact he
  · intro hr
    exact ⟨_, hr, rfl⟩

theorem mem_liveRecords {r : Stamp × V × Anchor} :
    r ∈ l.liveRecords ↔ ∃ n, l.nodes[seqKey r.1]? = some n ∧ n.value = r.2.1 ∧ n.anchor = r.2.2 := by
  rw [liveRecords, List.mem_insertionSort, List.mem_map]
  constructor
  · rintro ⟨⟨key, n⟩, he, rfl⟩
    exact ⟨n, mem_toList_iff.mp he, rfl, rfl⟩
  · rintro ⟨n, hNode, hValue, hAnchor⟩
    obtain ⟨id, value, anchor⟩ := r
    dsimp only at hValue hAnchor
    subst hValue hAnchor
    exact ⟨(seqKey id, n), mem_toList_iff.mpr hNode, rfl⟩

theorem pairwise_liveRecords (l : FugueList V) :
    l.liveRecords.Pairwise fun r s => seqKey r.1 ≠ seqKey s.1 := by
  have hPerm := List.perm_insertionSort (fun a b : Stamp × V × Anchor => a.1 ≤ b.1)
    (l.nodes.toList.map fun e => (seqStamp e.1, e.2.value, e.2.anchor))
  refine (hPerm.pairwise_iff fun h => Ne.symm h).mpr ?_
  rw [List.pairwise_map]
  exact pairwise_ne_entries l.nodes

theorem WF.pairwise_chunkRecords (h : l.WF) : l.chunkRecords.Pairwise fun r s =>
    ∀ x, covers r.1 r.2.1 x = true → ¬covers s.1 s.2.1 x = true := by
  have hPerm := List.perm_insertionSort (fun a b : Stamp × Nat × Anchor => a.1 ≤ b.1)
    (l.dead.toList.map fun e => (seqStamp e.1, e.2.len, e.2.anchor))
  have hHeads : l.runRecords.Pairwise fun r s => r.1 ≠ s.1 := by
    refine (hPerm.pairwise_iff fun h => Ne.symm h).mpr ?_
    rw [List.pairwise_map]
    refine (pairwise_ne_entries l.dead).imp ?_
    rintro a b hKeys hEq
    exact hKeys (congrArg seqKey hEq)
  rw [chunkRecords, List.pairwise_flatMap]
  refine ⟨fun r _ => pairwise_chunks 0 r.2.1, hHeads.imp_of_mem ?_⟩
  rintro r s hr hs hNe c hc d hd x hxc hxd
  obtain ⟨o, n, rfl, -, -, -, hEnd⟩ := mem_chunks hc
  obtain ⟨o', n', rfl, -, -, -, hEnd'⟩ := mem_chunks hd
  exact hNe (h.runs.apart r.1 _ s.1 _ x ⟨mem_runRecords.mp hr, covers_whole hEnd hxc⟩
    ⟨mem_runRecords.mp hs, covers_whole hEnd' hxd⟩)

/-- The records say of each id what the runs say. -/
theorem WF.deadAnchorOf_chunk (h : l.WF) {r : Stamp × Nat × Anchor} (hr : r ∈ l.chunkRecords)
    {x : Stamp} (hx : covers r.1 r.2.1 x = true) :
    deadAnchorOf l.dead x = some (chainAnchor r.1 r.2.2 x) := by
  obtain ⟨s, hs, hr⟩ := List.mem_flatMap.mp hr
  obtain ⟨o, n, rfl, -, -, -, hEnd⟩ := mem_chunks hr
  have hHolds : Holds l.dead s.1 ⟨s.2.1, s.2.2⟩ x := ⟨mem_runRecords.mp hs, covers_whole hEnd hx⟩
  rw [h.runs.deadAnchorOf_of_holds hHolds]
  exact congrArg some (chainAnchor_chunk hx).symm

theorem WF.exists_chunkRecord (h : l.WF) {x : Stamp} (hx : deadAnchorOf l.dead x ≠ none) :
    ∃ r ∈ l.chunkRecords, covers r.1 r.2.1 x = true := by
  obtain ⟨anchor, hAnchor⟩ := Option.ne_none_iff_exists'.mp hx
  obtain ⟨head, run, ⟨hRun, hCovers⟩, -⟩ := h.runs.deadAnchorOf_eq_some.mp hAnchor
  obtain ⟨-, -, hLow, hHigh⟩ := covers_iff.mp hCovers
  rw [eq_runId_of_covers hCovers]
  obtain ⟨r, hr, hHolds⟩ := @exists_chunk head run.len run.anchor 0 run.len _ le_rfl (Nat.zero_le _)
    (show x.lamport - head.lamport < run.len by omega)
  exact ⟨r, List.mem_flatMap.mpr ⟨(head, run.len, run.anchor), mem_runRecords.mpr hRun, hr⟩, hHolds⟩

end Records

section Install

variable {l : FugueList Element}

/-- Nothing of a stretch is stored where no id of it is held. -/
theorem WF.holdsAny_of_vacant {V : Type} {l : FugueList V} (h : l.WF) {start : Stamp} {len : Nat}
    (hPos : 0 < len) (hVacant : ∀ x, covers start len x = true → l.cellAt x = none) :
    l.holdsAny start (start.lamport + (len - 1)) = false := by
  have hStart := (cellAt_eq_none.mp (hVacant start (covers_head hPos))).2
  -- A key found from the start of the stretch to its end is an id of it.
  have hRange : ∀ {W : Type} (m : ExtTreeMap SeqKey W compare),
      (∀ x w, m[seqKey x]? = some w → l.cellAt x = none → False) →
      (firstAtLeast m (seqKey start)).any
        (fun e => e.1 ≤ ⟨start.client, start.offset, start.lamport + (len - 1)⟩) = false := by
    intro W m hHeld
    cases hFirst : firstAtLeast m (seqKey start) with
    | none => rfl
    | some e =>
      obtain ⟨hEntry, hLow, -⟩ := firstAtLeast_eq_some (show _ = some (e.1, e.2) from hFirst)
      rw [Option.any_some, decide_eq_false_iff_not]
      intro hHigh
      refine hHeld (seqStamp e.1) e.2 hEntry (hVacant _ ?_)
      rw [SeqKey.le_iff] at hLow hHigh
      simp only [seqKey] at hLow hHigh
      have hClient : start.client = e.1.client := by
        apply le_antisymm
        · rcases hLow with hLow | hLow
          · exact hLow.le
          · exact hLow.1.le
        · rcases hHigh with hHigh | hHigh
          · exact hHigh.le
          · exact hHigh.1.le
      simp only [hClient, lt_irrefl, true_and, false_or] at hLow hHigh
      rw [covers_iff]
      simp only [seqStamp]
      exact ⟨hClient, by omega, by omega, by omega⟩
  have hNodes := hRange l.nodes fun x n hNode hNone => by
    rw [(cellAt_eq_none.mp hNone).1] at hNode
    cases hNode
  have hRuns := hRange l.dead fun x run hRun hNone =>
    h.runs.deadAnchorOf_eq_none.mp (cellAt_eq_none.mp hNone).2 x run
      ⟨hRun, covers_head (h.runs.pos x run hRun)⟩
  have hDeadRun := h.runs.deadRun_eq_none.mpr (h.runs.deadAnchorOf_eq_none.mp hStart)
  rw [holdsAny, hDeadRun, hNodes, hRuns]
  rfl

theorem Canonical.installRuns_eq {l : FugueList Element} (h : l.Canonical)
    {runs : List (Stamp × Nat × Anchor)}
    (hSized : ∀ r ∈ runs, 0 < r.2.1 ∧ r.1.lamport + (r.2.1 - 1) ≤ u64Max)
    (hApart : runs.Pairwise fun r s => ∀ x, covers r.1 r.2.1 x = true → ¬covers s.1 s.2.1 x = true)
    (hVacant : ∀ r ∈ runs, ∀ x, covers r.1 r.2.1 x = true → l.cellAt x = none) :
    ∃ dead, l.installRuns runs = .ok { l with dead } ∧
      ({ l with dead } : FugueList Element).Canonical ∧
      (∀ r ∈ runs, ∀ x, covers r.1 r.2.1 x = true →
        deadAnchorOf dead x = some (chainAnchor r.1 r.2.2 x)) ∧
      ∀ x, (∀ r ∈ runs, ¬covers r.1 r.2.1 x = true) → deadAnchorOf dead x = deadAnchorOf l.dead x := by
  induction runs generalizing l with
  | nil => exact ⟨l.dead, rfl, h, fun _ hr => (nomatch hr), fun _ _ => rfl⟩
  | cons r runs ih =>
    obtain ⟨⟨hPos, hLast⟩, hSizedRest⟩ := List.forall_mem_cons.mp hSized
    obtain ⟨hApartFirst, hApartRest⟩ := List.pairwise_cons.mp hApart
    obtain ⟨hVacantFirst, hVacantRest⟩ := List.forall_mem_cons.mp hVacant
    have hInstalled := h.install hPos hLast hVacantFirst r.2.2
    have hBuried := h.wf.bury_unseen hPos hVacantFirst r.2.2
    obtain ⟨-, hAnchor⟩ := addDead_spec
      ⟨h.wf.runs, hPos, fun x hx => (cellAt_eq_none.mp (hVacantFirst x hx)).2⟩ r.2.2
    obtain ⟨dead, hRest, hCanonical, hIn, hOut⟩ := ih hInstalled hSizedRest hApartRest
      fun s hs x hx => by
        rw [hBuried.outside x fun hFirst => hApartFirst s hs x hFirst hx]
        exact hVacantRest s hs x hx
    refine ⟨dead, ?_, hCanonical, ?_, ?_⟩
    · have hAdd : checkedAdd r.1.lamport (r.2.1 - 1) = some (r.1.lamport + (r.2.1 - 1)) :=
        checkedAdd_eq_some.mpr ⟨rfl, hLast⟩
      rw [FugueList.installRuns, hAdd]
      dsimp only
      rw [h.wf.holdsAny_of_vacant hPos hVacantFirst, if_neg Bool.false_ne_true]
      exact hRest
    · intro s hs x hx
      obtain rfl | hs := List.mem_cons.mp hs
      · rw [hOut x fun t ht hxt => hApartFirst t ht x hx hxt, hAnchor, overlay, if_pos hx]
      · exact hIn s hs x hx
    · intro x hx
      obtain ⟨hFirst, hRest⟩ := List.forall_mem_cons.mp hx
      rw [hOut x hRest, hAnchor, overlay, if_neg hFirst]

end Install

section Nodes

variable [IdHash]

/-- The node a record is read as. -/
def nodeOf (r : Stamp × Element × Anchor) : Node Element := ⟨r.2.1.shell.1, r.2.2, false⟩

/-- The composite of a record, to be resolved. -/
def refOf (r : Stamp × Element × Anchor) : List NodeRef :=
  r.2.1.shell.2.toList.map fun (kind, child) => (r.1, kind, child)

def refs (l : FugueList Element) : List NodeRef := l.liveRecords.flatMap refOf

theorem reads_readNodes {records : List (Stamp × Element × Anchor)}
    (hFits : ∀ r ∈ records, r.1.fits = true ∧ r.2.1.fits = true ∧ r.2.2.fits = true)
    (hKeys : records.Pairwise fun r s => seqKey r.1 ≠ seqKey s.1) (l : FugueList Element)
    (hNew : ∀ r ∈ records, l.nodes[seqKey r.1]? = none) (held : List NodeRef) :
    Reads (l.readNodes held records.length) (records.flatMap putNode)
      ({ l with nodes := records.foldl (fun m r => m.insert (seqKey r.1) (nodeOf r)) l.nodes },
        held ++ records.flatMap refOf) := by
  induction records generalizing l held with
  | nil =>
    rw [List.flatMap_nil, List.flatMap_nil, List.append_nil]
    exact Reads.pure (l, held)
  | cons r records ih =>
    obtain ⟨⟨hId, hValue, hAnchor⟩, hFitsRest⟩ := List.forall_mem_cons.mp hFits
    obtain ⟨hNewFirst, hNewRest⟩ := List.forall_mem_cons.mp hNew
    obtain ⟨hHead, hTail⟩ := List.pairwise_cons.mp hKeys
    have hContains : l.nodes.contains (seqKey r.1) = false := by
      rw [← ExtTreeMap.isSome_getElem?_eq_contains, hNewFirst]
      rfl
    have hRest := ih hFitsRest hTail
      { l with nodes := l.nodes.insert (seqKey r.1) (nodeOf r) } (fun s hs => by
        rw [getElem?_insert_ite, if_neg (hHead s hs).symm]
        exact hNewRest s hs) (held ++ refOf r)
    rw [List.length_cons, List.flatMap_cons, List.flatMap_cons, List.foldl_cons, ← List.append_assoc,
      readNodes, putNode, List.append_assoc, List.append_assoc]
    refine (reads_stamp hId).bind ((reads_listNodeValue hValue).bind ?_)
    refine (readsStamps_stamp.anchor hAnchor).bind ?_
    rw [hContains, if_neg Bool.false_ne_true]
    exact hRest

/-- The list as its bytes name it, composites not resolved yet. -/
def shell (l : FugueList Element) : FugueList Element :=
  ⟨l.id.raw, l.nodes.map fun _ n => ⟨n.value.shell.1, n.anchor, false⟩, l.dead, false⟩

/-- The list as its bytes name it, no node suppressed. -/
def restored (l : FugueList Element) : FugueList Element :=
  ⟨l.id.raw, l.nodes.map fun _ n => ⟨n.value.raw, n.anchor, false⟩, l.dead, false⟩

/-- The second pass: every reference becomes the handle it names. -/
def resolveRefs (l : FugueList Element) (refs : List NodeRef) : FugueList Element :=
  refs.foldl (fun l (id, kind, child) => l.resolveNode id (.handle kind child)) l

/-- What the source's integer types and the length fields hold. -/
structure Fits (l : FugueList Element) : Prop where
  nodes : ∀ id n, l.nodes[seqKey id]? = some n →
    id.fits = true ∧ n.value.fits = true ∧ n.anchor.fits = true
  runs : ∀ head run, l.dead[seqKey head]? = some run → head.fits = true ∧ run.anchor.fits = true

variable {l : FugueList Element}

omit [IdHash] in
theorem Fits.record (h : l.Fits) {r : Stamp × Element × Anchor} (hr : r ∈ l.liveRecords) :
    r.1.fits = true ∧ r.2.1.fits = true ∧ r.2.2.fits = true := by
  obtain ⟨n, hNode, hValue, hAnchor⟩ := mem_liveRecords.mp hr
  rw [← hValue, ← hAnchor]
  exact h.nodes r.1 n hNode

theorem foldl_nodes (l : FugueList Element) :
    l.liveRecords.foldl (fun m r => m.insert (seqKey r.1) (nodeOf r)) ∅ =
      l.nodes.map fun _ n => ⟨n.value.shell.1, n.anchor, false⟩ := by
  obtain ⟨hIn, hOut⟩ := read_foldl (f := fun r _ => some (nodeOf r))
    (fun m r k => getElem?_insert_ite m (seqKey r.1) (nodeOf r) k) l.pairwise_liveRecords ∅
  refine ExtTreeMap.ext_getElem? fun key => ?_
  rw [ExtTreeMap.getElem?_map]
  cases hNode : l.nodes[key]? with
  | some n =>
    have hMem : (seqStamp key, n.value, n.anchor) ∈ l.liveRecords :=
      mem_liveRecords.mpr ⟨n, hNode, rfl, rfl⟩
    exact hIn _ hMem
  | none =>
    rw [hOut key]
    · simp
    · rintro r hr rfl
      obtain ⟨n, hSome, -⟩ := mem_liveRecords.mp hr
      rw [hNode] at hSome
      cases hSome

omit [IdHash] in
theorem Canonical.chunk_sized (h : l.Canonical) (hFits : l.Fits) {r : Stamp × Nat × Anchor}
    (hr : r ∈ l.chunkRecords) : r.1.fits = true ∧ (0 < r.2.1 ∧ r.2.1 ≤ MAX_TOMBSTONE_RUN) ∧
      r.2.2.fits = true ∧ r.1.lamport + (r.2.1 - 1) ≤ u64Max := by
  obtain ⟨⟨start, len, anchor⟩, hs, hr⟩ := List.mem_flatMap.mp hr
  obtain ⟨o, n, rfl, -, hPos, hCap, hEnd⟩ := mem_chunks hr
  have hRun := mem_runRecords.mp hs
  obtain ⟨hHead, hAnchor⟩ := hFits.runs start _ hRun
  -- Every id of the run is a stamp the list holds.
  have hId : ∀ i < len, (runId start i).fits = true := by
    intro i hi
    have hHolds : Holds l.dead start ⟨len, anchor⟩ (runId start i) := ⟨hRun, covers_runId.mpr hi⟩
    have hLamport := h.runsSized (runId start i) (by
      rw [h.wf.runs.deadAnchorOf_of_holds hHolds]
      exact Option.some_ne_none _)
    have hOffset := (of_decide_eq_true hHead).2
    refine decide_eq_true ⟨?_, hOffset⟩
    unfold u64Max at hLamport
    omega
  have hLast := of_decide_eq_true (hId (o + (n - 1)) (by omega))
  refine ⟨hId o (by omega), ⟨hPos, hCap⟩, ?_, ?_⟩
  · dsimp only
    split
    · exact hAnchor
    · exact hId (o - 1) (by omega)
  · simp only [runId] at hLast ⊢
    unfold u64Max
    omega

omit [IdHash] in
theorem deadAnchorOf_empty (x : Stamp) : deadAnchorOf ∅ x = none := by
  rw [wf_empty.deadAnchorOf_eq_none]
  intro head run hHolds
  simp [Holds] at hHolds

/-- The nodes alone, before any run is installed. -/
theorem Canonical.nodesOnly (h : l.Canonical) : ({ l.shell with dead := ∅ } : FugueList Element).Canonical where
  wf := ⟨wf_empty, fun x _ _ => deadAnchorOf_empty x⟩
  maximal := maximal_empty
  sized x hx := by
    refine h.sized x fun hNone => hx (cellAt_eq_none.mpr ⟨?_, deadAnchorOf_empty x⟩)
    rw [shell, ExtTreeMap.getElem?_map, (cellAt_eq_none.mp hNone).1]
    rfl

/-- The split records, installed over the nodes, are the runs they were split from. -/
theorem Canonical.installRuns_chunks (h : l.Canonical) (hFits : l.Fits) :
    FugueList.installRuns { l.shell with dead := ∅ } l.chunkRecords = .ok l.shell := by
  obtain ⟨dead, hInstall, hCanonical, hIn, hOut⟩ := h.nodesOnly.installRuns_eq
    (fun r hr => ⟨(h.chunk_sized hFits hr).2.1.1, (h.chunk_sized hFits hr).2.2.2⟩)
    h.wf.pairwise_chunkRecords (fun r hr x hx => by
      refine cellAt_eq_none.mpr ⟨?_, deadAnchorOf_empty x⟩
      rw [shell, ExtTreeMap.getElem?_map]
      cases hNode : l.nodes[seqKey x]? with
      | none => rfl
      | some n =>
        have hDead := h.wf.deadAnchorOf_chunk hr hx
        rw [h.wf.apart x n hNode] at hDead
        cases hDead)
  have hDead : dead = l.dead := by
    refine Runs.eq_of_anchors hCanonical.wf.runs h.wf.runs hCanonical.maximal h.maximal fun x => ?_
    by_cases hHeld : ∃ r ∈ l.chunkRecords, covers r.1 r.2.1 x = true
    · obtain ⟨r, hr, hx⟩ := hHeld
      rw [hIn r hr x hx, h.wf.deadAnchorOf_chunk hr hx]
    · have hNone : deadAnchorOf l.dead x = none := by
        by_contra hSome
        exact hHeld (h.wf.exists_chunkRecord hSome)
      rw [hOut x fun r hr hx => hHeld ⟨r, hr, hx⟩, hNone]
      exact deadAnchorOf_empty x
  rw [hInstall, hDead]
  rfl

/-- A list in canonical form is read back from its bytes, its runs welded as they were. -/
theorem Canonical.reads_encodeState (h : l.Canonical) (hFits : l.Fits) {b : Bytes}
    (hEncode : l.encodeState = some b) : Reads decodeStateFrom b (l.shell, l.refs) := by
  unfold encodeState at hEncode
  split at hEncode
  swap
  · cases hEncode
  next hCounts =>
    obtain rfl := Option.some.inj hEncode
    refine (reads_elementId l.id).bind ((reads_u32 hCounts.1).bind ?_)
    refine (reads_readNodes (fun r hr => hFits.record hr) l.pairwise_liveRecords
      (FugueList.new l.id.raw) (fun r _ => by simp [FugueList.new]) []).bind
        ((reads_u32 hCounts.2).bind ?_)
    have hRuns := Reads.times (l := l.chunkRecords) fun r hr => by
      obtain ⟨hId, hLength, hAnchor, -⟩ := h.chunk_sized hFits hr
      exact reads_run hId hLength hAnchor
    rw [List.map_id'] at hRuns
    rw [← List.append_nil (l.chunkRecords.flatMap putRun)]
    refine hRuns.bind ?_
    have hInstall := h.installRuns_chunks hFits
    rw [shell, ← foldl_nodes] at hInstall
    dsimp only [FugueList.new]
    rw [hInstall, foldl_nodes]
    exact Reads.pure (l.shell, l.refs)

section Resolve

omit [IdHash] in
theorem resolveNode_node {V : Type} (l : FugueList V) (id : Stamp) (value : V) (key : SeqKey) :
    (l.resolveNode id value).nodes[key]? =
      if key = seqKey id then l.nodes[key]?.map (fun n => { n with value }) else l.nodes[key]? := by
  unfold resolveNode
  cases hNode : l.nodes[seqKey id]? with
  | some n =>
    dsimp only
    rw [getElem?_insert_ite]
    split
    next hKey => rw [hKey, hNode, Option.map_some]
    next => rfl
  | none =>
    dsimp only
    split
    next hKey => rw [hKey, hNode, Option.map_none]
    next => rfl

omit [IdHash] in
theorem resolveNode_rest {V : Type} (l : FugueList V) (id : Stamp) (value : V) :
    (l.resolveNode id value).id = l.id ∧ (l.resolveNode id value).dead = l.dead ∧
      (l.resolveNode id value).displaced = l.displaced := by
  unfold resolveNode
  split
  · exact ⟨rfl, rfl, rfl⟩
  · exact ⟨rfl, rfl, rfl⟩

omit [IdHash] in
theorem resolveRefs_rest (refs : List NodeRef) (l : FugueList Element) :
    (l.resolveRefs refs).id = l.id ∧ (l.resolveRefs refs).dead = l.dead ∧
      (l.resolveRefs refs).displaced = l.displaced := by
  induction refs generalizing l with
  | nil => exact ⟨rfl, rfl, rfl⟩
  | cons ref refs ih =>
    obtain ⟨hId, hDead, hDisplaced⟩ := ih (l.resolveNode ref.1 (.handle ref.2.1 ref.2.2))
    obtain ⟨hId', hDead', hDisplaced'⟩ := resolveNode_rest l ref.1 (.handle ref.2.1 ref.2.2)
    exact ⟨hId.trans hId', hDead.trans hDead', hDisplaced.trans hDisplaced'⟩

theorem mem_refs {ref : NodeRef} : ref ∈ l.refs ↔
    ∃ n, l.nodes[seqKey ref.1]? = some n ∧ n.value.shell.2 = some ref.2 := by
  obtain ⟨id, kind, child⟩ := ref
  rw [refs, List.mem_flatMap]
  constructor
  · rintro ⟨r, hr, hRef⟩
    obtain ⟨⟨kind', child'⟩, hShell, hEq⟩ := List.mem_map.mp hRef
    cases hEq
    obtain ⟨n, hNode, hValue, -⟩ := mem_liveRecords.mp hr
    exact ⟨n, hNode, by rw [hValue]; exact Option.mem_toList.mp hShell⟩
  · rintro ⟨n, hNode, hShell⟩
    refine ⟨(id, n.value, n.anchor), mem_liveRecords.mpr ⟨n, hNode, rfl, rfl⟩, ?_⟩
    exact List.mem_map.mpr ⟨(kind, child), Option.mem_toList.mpr hShell, rfl⟩

theorem pairwise_refs (l : FugueList Element) :
    l.refs.Pairwise fun a b => seqKey a.1 ≠ seqKey b.1 := by
  have hKey : ∀ {r : Stamp × Element × Anchor} {ref : NodeRef}, ref ∈ refOf r → ref.1 = r.1 := by
    intro r ref hRef
    obtain ⟨-, -, rfl⟩ := List.mem_map.mp hRef
    rfl
  rw [refs, List.pairwise_flatMap]
  refine ⟨fun r _ => ?_, l.pairwise_liveRecords.imp fun hNe a ha b hb => ?_⟩
  · unfold refOf
    cases r.2.1.shell.2 with
    | none => exact .nil
    | some ref => exact List.pairwise_singleton _ _
  · rwa [hKey ha, hKey hb]

/-- Resolved, the placeholders are what the nodes held. -/
theorem resolveRefs_shell (l : FugueList Element) : l.shell.resolveRefs l.refs = l.restored := by
  have hNodes : (l.shell.resolveRefs l.refs).nodes = l.restored.nodes := by
    refine ExtTreeMap.ext_getElem? fun key => ?_
    obtain ⟨hIn, hOut⟩ := @read_foldl (FugueList Element) NodeRef SeqKey (Node Element) _
      (fun l key => l.nodes[key]?) (fun l ref => l.resolveNode ref.1 (.handle ref.2.1 ref.2.2))
      (fun ref => seqKey ref.1)
      (fun ref => Option.map fun n => { n with value := .handle ref.2.1 ref.2.2 })
      (fun l ref key => resolveNode_node l ref.1 (.handle ref.2.1 ref.2.2) key) l.refs l.pairwise_refs
      l.shell
    have hShell : l.shell.nodes[key]? =
        l.nodes[key]?.map fun n => ⟨n.value.shell.1, n.anchor, false⟩ := ExtTreeMap.getElem?_map
    have hRestored : l.restored.nodes[key]? =
        l.nodes[key]?.map fun n => ⟨n.value.raw, n.anchor, false⟩ := ExtTreeMap.getElem?_map
    rw [hRestored]
    by_cases hRef : ∃ ref ∈ l.refs, seqKey ref.1 = key
    · obtain ⟨ref, hMem, rfl⟩ := hRef
      obtain ⟨n, hNode, hTo⟩ := mem_refs.mp hMem
      refine (hIn ref hMem).trans ?_
      rw [hShell, hNode]
      cases hValue : n.value with
      | scalar | register => rw [hValue] at hTo; cases hTo
      | handle kind id =>
        rw [hValue] at hTo
        have hTo' : (kind, id.raw) = ref.2 := Option.some.inj hTo
        simp [Element.raw, hValue, ← hTo']
    · refine (hOut key fun ref hMem hKey => hRef ⟨ref, hMem, hKey⟩).trans ?_
      rw [hShell]
      cases hNode : l.nodes[key]? with
      | none => rfl
      | some n =>
        cases hValue : n.value with
        | scalar | register => simp [Element.shell, Element.raw, hValue]
        | handle kind id =>
          refine absurd ⟨(seqStamp key, kind, id.raw), mem_refs.mpr ⟨n, hNode, ?_⟩, rfl⟩ hRef
          rw [hValue]
          rfl
  obtain ⟨hId, hDead, hDisplaced⟩ := resolveRefs_rest l.refs l.shell
  cases hResolved : l.shell.resolveRefs l.refs
  rw [hResolved] at hNodes hId hDead hDisplaced
  dsimp only at hNodes hId hDead hDisplaced
  rw [hNodes, hId, hDead, hDisplaced]
  rfl

end Resolve

variable [IdBytes]

/-- Every list the operations and the decoder build comes back from its bytes: read with
its composites as references, it resolves to the list with no node suppressed, and a
list of scalars is decoded to it outright. -/
theorem list_codec (h : Reached l) (hFits : l.Fits) {b : Bytes} (hEncode : l.encodeState = some b) :
    (∀ rest, decodeStateFrom.run (b ++ rest) = .ok ((l.shell, l.refs), rest)) ∧
      l.shell.resolveRefs l.refs = l.restored ∧
      ((∀ id n, l.nodes[seqKey id]? = some n → n.value.kind = .scalar) →
        decodeState b = .ok l.restored) := by
  have hReads := h.canonical.reads_encodeState hFits hEncode
  have hResolve := resolveRefs_shell l
  refine ⟨hReads, hResolve, fun hScalars => ?_⟩
  have hNone : l.refs = [] := by
    rw [List.eq_nil_iff_forall_not_mem]
    intro ref hRef
    obtain ⟨n, hNode, hTo⟩ := mem_refs.mp hRef
    have hKind := hScalars ref.1 n hNode
    cases hValue : n.value with
    | scalar | register => rw [hValue] at hTo; cases hTo
    | handle kind id =>
      have hValueFits := (hFits.nodes ref.1 n hNode).2.1
      rw [hValue] at hKind hValueFits
      obtain rfl : kind = .scalar := hKind
      cases hValueFits
  have hRun := hReads []
  rw [List.append_nil] at hRun
  rw [decodeState, hRun, ← hResolve, hNone]
  rfl

end Nodes

section Examples

local instance roundTripIdBytes : IdBytes := IdBytes.spelled

local instance roundTripIdHash : IdHash := ⟨fun _ _ _ => 0⟩

/-- Two neighbours, the first of them deleted. -/
theorem list_codec_typed : ∃ b, (typed.deleteId ⟨1, ⟨1⟩, 0⟩).encodeState = some b ∧
    decodeState b = .ok (typed.deleteId ⟨1, ⟨1⟩, 0⟩).restored := by
  have hSome : ((typed.deleteId ⟨1, ⟨1⟩, 0⟩).encodeState).isSome = true := by decide +kernel
  obtain ⟨b, hEncode⟩ := Option.isSome_iff_exists.mp hSome
  have hNodes : ∀ e ∈ (typed.deleteId ⟨1, ⟨1⟩, 0⟩).nodes.toList, (seqStamp e.1).fits = true ∧
      e.2.value.fits = true ∧ e.2.anchor.fits = true ∧ e.2.value.kind = .scalar := by
    decide +kernel
  have hRuns : ∀ e ∈ (typed.deleteId ⟨1, ⟨1⟩, 0⟩).dead.toList,
      (seqStamp e.1).fits = true ∧ e.2.anchor.fits = true := by
    decide +kernel
  have hFits : (typed.deleteId ⟨1, ⟨1⟩, 0⟩).Fits := by
    refine ⟨fun id n hNode => ?_, fun head run hRun => hRuns (seqKey head, run) (mem_toList_iff.mpr hRun)⟩
    obtain ⟨hId, hValue, hAnchor, -⟩ := hNodes (seqKey id, n) (mem_toList_iff.mpr hNode)
    exact ⟨hId, hValue, hAnchor⟩
  refine ⟨b, hEncode, (list_codec (reached_typed.deleteId _) hFits hEncode).2.2 fun id n hNode => ?_⟩
  exact (hNodes (seqKey id, n) (mem_toList_iff.mpr hNode)).2.2.2

end Examples

end FugueList

end CrdtSync
