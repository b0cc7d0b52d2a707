import Mathlib.Data.Finset.Lattice.Fold
import CrdtSync.Core.DeliveryKeeps
import CrdtSync.Core.OpIds

/-!
# Lamport clocks over whole histories

A reservation inside the id space is exact, a clock stays inside it, and a mint past its end is
refused. Authors raise a clock to what they mint, receivers to the wire ceiling at most, so
replicas that fold the same ops agree on their clocks up to that ceiling and no further.
-/

namespace CrdtSync

open Lib
open Std (ExtTreeMap)

namespace Op

theorem runMember_of_isAdmissible {op : Op} (h : op.isAdmissible = true) {k : Nat}
    (hk : k < span op.kind) :
    op.stamp.runMember k = { op.stamp with lamport := op.stamp.lamport + k } := by
  have hEnd := (minted_of_isAdmissible h).2.2.2
  have hCeiling : LAMPORT_STATE_CEILING ≤ u64Max := by decide
  have hSum : checkedAdd op.stamp.lamport k = some (op.stamp.lamport + k) :=
    checkedAdd_eq_some.mpr ⟨rfl, by omega⟩
  rw [Stamp.runMember, hSum]

end Op

theorem Stamp.lt_of_lamport {a b : Stamp} (h : a.lamport < b.lamport) : a < b := by
  change a.rank < b.rank
  simp [Stamp.rank, Prod.Lex.toLex_lt_toLex, h]

/-- The first `n` ids counted on from `base` are what the addition says, and in order. -/
def CountsOn (base : Stamp) (member : Nat → Stamp) (n : Nat) : Prop :=
  ∀ j < n, checkedAdd base.lamport j = some (member j).lamport ∧ ∀ i < j, member i < member j

/-- What an admissible op reserves is counted exactly, up to an end inside the space. -/
def Op.Exact (op : Op) : Prop :=
  CountsOn op.stamp op.stamp.runMember (span op.kind) ∧
    op.reservationEnd + 1 = op.stamp.lamport + span op.kind ∧ op.reservationEnd ≤ LAMPORT_STATE_CEILING

theorem Op.exact_of_isAdmissible {op : Op} (h : op.isAdmissible = true) : op.Exact := by
  have hMinted := minted_of_isAdmissible h
  have hEnd := hMinted.reservationEnd
  have hCeiling := hMinted.2.2.2
  have hSpace : LAMPORT_STATE_CEILING ≤ u64Max := by decide
  have hPos := span_pos op.kind
  refine ⟨fun j hj => ?_, by omega, by omega⟩
  have hFits : op.stamp.lamport + j ≤ u64Max := by omega
  rw [runMember_of_isAdmissible h hj]
  refine ⟨checkedAdd_eq_some.mpr ⟨rfl, hFits⟩, fun i hi => ?_⟩
  rw [runMember_of_isAdmissible h (hi.trans hj)]
  exact Stamp.lt_of_lamport (Nat.add_lt_add_left hi _)

/-- A mint is refused when its reservation would end past the id space, and counts on from the floor
otherwise. -/
theorem mintPosition_eq {floor n : Nat} (hn : 0 < n) (client : ClientId) :
    mintPosition floor n client =
      if LAMPORT_STATE_CEILING < floor + n then none else some ⟨floor + 1, client, 0⟩ := by
  split
  next hSpent =>
    refine Option.eq_none_iff_forall_not_mem.mpr fun stamp hStamp => ?_
    have hEnd := (mintPosition_eq_some.mp hStamp).2
    omega
  next hRoom => exact mintPosition_eq_some.mpr ⟨rfl, by omega⟩

namespace Document

section Clocks

variable {σ : Type} [Folds σ] {d : Document σ} {op : Op} {e : Edit}

theorem clock_applyKind (d : Document σ) (target : ElementId) (kind : OpKind) (stamp : Stamp)
    (author : ClientId) (zone : Option Nat) :
    (d.applyKind target kind stamp author).clock zone = d.clock zone := by
  rw [← (sameFolds_recordStamp d stamp (span kind)).clock zone]
  cases zone <;> rfl

theorem clock_applyNow (d : Document σ) (op : Op) (zone : Option Nat) :
    (d.applyNow op).clock zone = if zone = op.zone then
      max (d.clock zone) (min op.reservationEnd LAMPORT_WIRE_CEILING) else d.clock zone := by
  unfold applyNow
  rw [clock_applyKind, clock_advanceClock]
  split
  next hZone =>
    subst hZone
    cases op.zone <;> rfl
  next => cases zone <;> rfl

/-- What an edit that is not refused does to the clocks and the dedup set. -/
theorem clock_emit (hEmitted : d.emitted e = some op) (zone : Option Nat) :
    (d.emit e).clock zone = (if zone = op.zone then max (d.clock zone) op.reservationEnd
      else d.clock zone) ∧ op.zone = e.zone := by
  obtain ⟨hMinted, -, -⟩ := emitted_spec hEmitted
  have hEnd := hMinted.reservationEnd
  have hPos := span_pos op.kind
  unfold emitted at hEmitted
  split at hEmitted
  · cases hEmitted
  next hOpen =>
    obtain ⟨stamp, hStamp, rfl⟩ := Option.map_eq_some_iff.mp hEmitted
    refine ⟨?_, rfl⟩
    have hLast : stamp.lamport + span e.kind - 1 =
        (⟨⟨d.client, d.nextSeq⟩, stamp, e.target, e.kind, none, e.zone⟩ : Op).reservationEnd := by
      rw [hEnd]
      dsimp only at hPos ⊢
      omega
    have hOther (d : Document σ) (op : Op) :
        ({ d with pending := d.pending ++ [op] } : Document σ).clock zone = d.clock zone := by
      cases zone <;> rfl
    unfold emit
    rw [if_neg hOpen, hStamp, ← hLast]
    dsimp only
    have hMint (d : Document σ) : d.mintOpId.2.clock zone = d.clock zone := by cases zone <;> rfl
    rw [hOther, clock_applyKind, hMint, clock_advanceClock]
    by_cases hZone : zone = e.zone
    · rw [if_pos hZone, ← hZone]
      exact (if_pos rfl).symm
    · rw [if_neg hZone]
      exact (if_neg hZone).symm

end Clocks

section Carriers

variable {σ : Type} [Folds σ] {d : Document σ} {e : Edit} {U : OpId → Op}

theorem clock_emit_of_refused (hEmitted : d.emitted e = none) (zone : Option Nat) :
    (d.emit e).clock zone = d.clock zone := by
  rw [emit_of_emitted_eq_none hEmitted]
  cases zone <;> rfl

def ClocksInSpace (d : Document σ) : Prop := ∀ zone, d.clock zone ≤ LAMPORT_STATE_CEILING

omit [Folds σ] in
theorem wire_le_state : LAMPORT_WIRE_CEILING ≤ LAMPORT_STATE_CEILING := by decide

theorem carried_clocksInSpace : Carried (ClocksInSpace (σ := σ)) fun _ => True where
  congr hSame h zone := (hSame.clock zone).trans_le (h zone)
  untagged _ := trivial
  applyNow {d op} h _ zone := by
    rw [clock_applyNow]
    split
    · exact max_le (h zone) ((min_le_right _ _).trans wire_le_state)
    · exact h zone

theorem ClocksInSpace.emit (h : d.ClocksInSpace) : (d.emit e).ClocksInSpace := by
  intro zone
  cases hEmitted : d.emitted e with
  | none => exact (clock_emit_of_refused hEmitted zone).trans_le (h zone)
  | some op =>
    rw [(clock_emit hEmitted zone).1]
    have hMinted := (emitted_spec hEmitted).1
    split
    · exact max_le (h zone) (hMinted.reservationEnd.trans_le hMinted.2.2.2)
    · exact h zone

/-- Ops of other zones leave a clock where it is. -/
theorem carried_clock (zone : Option Nat) (reached : Nat) :
    Carried (fun d : Document σ => d.clock zone = reached) fun op => op.zone ≠ zone where
  congr hSame h := (hSame.clock zone).trans h
  untagged h := h
  applyNow {d op} h hOp := by rw [clock_applyNow, if_neg (Ne.symm hOp), h]

theorem clock_emit_of_ne {zone : Option Nat} (hZone : e.zone ≠ zone) :
    (d.emit e).clock zone = d.clock zone := by
  cases hEmitted : d.emitted e with
  | none => exact clock_emit_of_refused hEmitted zone
  | some op =>
    obtain ⟨hClock, hSame⟩ := clock_emit hEmitted zone
    rw [hClock, if_neg (hSame ▸ Ne.symm hZone)]

/-- The op is, its group tag aside, the one its id names. -/
def Names (U : OpId → Op) (op : Op) : Prop :=
  op.zone = (U op.id).zone ∧ op.reservationEnd = (U op.id).reservationEnd

/-- How far an op of the zone raises a receiver's clock. -/
def raise (U : OpId → Op) (zone : Option Nat) (id : OpId) : Nat :=
  if (U id).zone = zone then min (U id).reservationEnd LAMPORT_WIRE_CEILING else 0

/-- Up to the wire ceiling every clock is where the ops of its zone put it. -/
def Level (U : OpId → Op) (d : Document σ) : Prop :=
  ∀ zone, min (d.clock zone) LAMPORT_WIRE_CEILING = d.seen.sup (raise U zone)

omit [Folds σ] in
theorem Names.raise_eq {op : Op} (h : Names U op) (zone : Option Nat) :
    raise U zone op.id = if op.zone = zone then min op.reservationEnd LAMPORT_WIRE_CEILING else 0 := by
  rw [raise, ← h.1, ← h.2]

theorem carried_level : Carried (Level (σ := σ) U) (Names U) where
  congr hSame h zone := by rw [hSame.clock, hSame.seen, h]
  untagged h := h
  applyNow {d op} h hOp zone := by
    rw [clock_applyNow, seen_applyNow, Finset.sup_insert, ← h, hOp.raise_eq]
    by_cases hZone : op.zone = zone
    · rw [if_pos hZone.symm, if_pos hZone]
      omega
    · rw [if_neg (Ne.symm hZone), if_neg hZone]
      omega

theorem Level.emit (h : d.Level U) (hNames : ∀ op, d.emitted e = some op → Names U op) :
    (d.emit e).Level U := by
  intro zone
  cases hEmitted : d.emitted e with
  | none =>
    rw [clock_emit_of_refused hEmitted, emit_of_emitted_eq_none hEmitted]
    exact h zone
  | some op =>
    rw [(clock_emit hEmitted zone).1, (emit_of_emitted hEmitted).2.1, Finset.sup_insert, ← h,
      (hNames op hEmitted).raise_eq]
    by_cases hZone : op.zone = zone
    · rw [if_pos hZone.symm, if_pos hZone]
      omega
    · rw [if_neg (Ne.symm hZone), if_neg hZone]
      omega

end Carriers

/-! ### Every state of every history -/

section Histories

variable [IdBytes] {d : Document Content} {e : Edit} {U : OpId → Op}

/-- The lamports a 64-bit integer holds. -/
def representable : Set Stamp := {s | s.lamport ≤ u64Max}

/-- Every clock is inside the id space, and every id held is representable. -/
structure InSpace (d : Document Content) : Prop where
  clocks : d.ClocksInSpace
  content : d.content.WithinBut Set.univ representable

omit [IdBytes] in
theorem representable_of_isAdmissible {op : Op} (h : op.isAdmissible = true) :
    op.stamp ∈ representable ∧ ∀ k < span op.kind, op.stamp.runMember k ∈ representable := by
  have hMinted := Op.minted_of_isAdmissible h
  have hCeiling : LAMPORT_STATE_CEILING ≤ u64Max := by decide
  have hEnd := hMinted.2.2.2
  have hPos := span_pos op.kind
  refine ⟨by change op.stamp.lamport ≤ u64Max; omega, fun k hk => ?_⟩
  have hMember := (Op.runMember_le hMinted hk).1.trans (hMinted.reservationEnd.trans_le hEnd)
  exact hMember.trans hCeiling

theorem carried_inSpace : Carried InSpace fun op => op.isAdmissible = true where
  congr hSame h := ⟨carried_clocksInSpace.congr hSame h.clocks, hSame.content ▸ h.content⟩
  untagged h := isAdmissible_untagged h
  applyNow {d op} h hOp := by
    refine ⟨carried_clocksInSpace.applyNow h.clocks trivial, ?_⟩
    obtain ⟨hStamp, hRun⟩ := representable_of_isAdmissible hOp
    have hApplied := h.content.applyKind op.target op.kind op.id.client hStamp hRun
    have hContent : (d.applyNow op).content =
        d.content.applyKind op.target op.kind op.stamp op.id.client := by
      unfold applyNow Document.applyKind
      simp [Folds.applyKind]
    exact hContent ▸ hApplied

theorem InSpace.emit (h : d.InSpace) : (d.emit e).InSpace := by
  refine ⟨h.clocks.emit, ?_⟩
  cases hEmitted : d.emitted e with
  | none =>
    rw [emit_of_emitted_eq_none hEmitted]
    exact h.content
  | some op =>
    obtain ⟨hStamp, hRun⟩ := representable_of_isAdmissible (isAdmissible_of_emitted hEmitted).1
    rw [(emit_of_emitted hEmitted).1]
    exact h.content.applyKind op.target op.kind op.id.client hStamp hRun

omit [IdBytes] in
theorem inSpace_new (client : ClientId) : (new client Content.new).InSpace := by
  refine ⟨fun zone => ?_, .new⟩
  cases zone with
  | none => exact Nat.zero_le _
  | some zone =>
    change ((∅ : ExtTreeMap Nat Nat compare)[zone]?).getD 0 ≤ _
    simp

omit [IdBytes] in
theorem inSpace_decoded {s : DocState Content} (hReadable : s.readable = true)
    (hContent : s.content.WithinBut Set.univ representable) : (decoded s).InSpace := by
  simp only [DocState.readable, Bool.and_eq_true, decide_eq_true_eq, List.all_eq_true] at hReadable
  obtain ⟨⟨⟨⟨⟨hRoot, hZones⟩, -⟩, -⟩, -⟩, -⟩ := hReadable
  refine ⟨fun zone => ?_, hContent⟩
  cases zone with
  | none => exact hRoot
  | some zone =>
    change (s.zoneClocks[zone]?).getD 0 ≤ _
    cases hClock : s.zoneClocks[zone]? with
    | none => exact Nat.zero_le _
    | some clock => exact hZones (zone, clock) (mem_toList_iff.mpr hClock)

/-- Where a history starts: at an empty document, or at what a snapshot reads back to whose
sequences are well formed and whose stamps are representable. -/
inductive Begins : Document Content → Prop
  | empty (client : ClientId) : Begins (new client Content.new)
  | snapshot {s : DocState Content} {d : Document Content}
      (hContent : s.content.WithinBut Set.univ representable) (hRead : readState s = some d) : Begins d

theorem Begins.upholds (h : d.Begins) : d.Upholds InSpace fun op => op.isAdmissible = true := by
  cases h with
  | empty client => exact ⟨inSpace_new client, fun op hOp => absurd hOp List.not_mem_nil⟩
  | @snapshot s d hContent hRead =>
    have hReadable : s.readable = true := by
      unfold readState at hRead
      split at hRead
      · assumption
      · cases hRead
    refine carried_inSpace.readState ⟨inSpace_decoded hReadable hContent, fun op hOp => ?_⟩ hRead
    simp only [DocState.readable, Bool.and_eq_true, decide_eq_true_eq, List.all_eq_true] at hReadable
    exact (hReadable.2 op hOp).2

omit [IdBytes] in
theorem eachEdit_true {σ : Type} [Folds σ] (d : Document σ) (edits : List Edit) :
    d.EachEdit (fun _ _ => True) edits := by
  induction edits generalizing d with
  | nil => trivial
  | cons e edits ih => exact ⟨trivial, ih _⟩

theorem suppliesAll_admissible [TxDigest] (d : Document Content) (passages : List Passage) :
    d.SuppliesAll (fun op => op.isAdmissible = true) (fun _ _ => True) passages := by
  induction passages generalizing d with
  | nil => trivial
  | cons p passages ih =>
    cases p with
    | act a =>
      refine ⟨?_, ih _⟩
      cases a with
      | transact edits => exact eachEdit_true _ edits
      | apply op => exact id
      | undo isAtomic edits => exact eachEdit_true _ edits
      | evictPartialTransactions | beginAtomic | commitAtomic | beginIntention | endIntention =>
        trivial
    | notePublished seqs reach => exact ih _
    | adoptAs client seq => exact ih _
    | reload => exact ih _

theorem InSpace.restored {content : Content} (h : d.InSpace) (hContent : d.content.restored = some content) :
    ({ d with content } : Document Content).InSpace :=
  ⟨h.clocks, Content.within_restored h.content hContent⟩

theorem Begins.history [TxDigest] (h : d.Begins) (passages : List Passage) :
    (d.history passages).Upholds InSpace fun op => op.isAdmissible = true :=
  carried_inSpace.history (fun _ h => h.emit) (fun h hContent => h.restored hContent) h.upholds
    (suppliesAll_admissible d passages)

/-- The ids of every record are counted exactly. -/
def CountedRuns (dead : Runs) : Prop :=
  ∀ head run, dead[seqKey head]? = some run → CountsOn head (runId head) run.len

omit [IdBytes] in
theorem countedRuns_of_within {l : FugueList Element} (h : l.Within representable) :
    CountedRuns l.dead := by
  intro head run hRun j hj
  have hHolds : Runs.Holds l.dead head run (runId head j) := ⟨hRun, covers_runId.mpr hj⟩
  have hIn : runId head j ∈ representable := by
    refine h.ids _ fun hNone => ?_
    exact h.wf.runs.deadAnchorOf_eq_none.mp (FugueList.cellAt_eq_none.mp hNone).2 head run hHolds
  exact ⟨checkedAdd_eq_some.mpr ⟨rfl, hIn⟩, fun i hi => Stamp.lt_of_lamport (Nat.add_lt_add_left hi _)⟩

/-- The lamports of a replica: clocks in the space, runs counted exactly, a mint refused exactly when
its reservation would leave the space, and each zone's clock moved by its own ops only. -/
structure LamportSound (d : Document Content) : Prop where
  clocks : ∀ zone, d.clock zone ≤ LAMPORT_STATE_CEILING
  listed : ∀ (id : ElementId) (l : FugueList Element), d.content.lists[id]? = some l → CountedRuns l.dead
  written : ∀ (id : ElementId) (t : FugueList Element), d.content.texts[id]? = some t → CountedRuns t.dead
  refused : ∀ e, d.emitted e = none ↔
    d.mintRefused = true ∨ LAMPORT_STATE_CEILING < d.mintFloor e.zone + span e.kind
  spent : ∀ e, d.emitted e = none → d.emit e = { d with mintRefused := true }
  minted : ∀ e op, d.emitted e = some op →
    op.Exact ∧ op.stamp = ⟨d.mintFloor e.zone + 1, d.client, 0⟩ ∧
      (d.emit e).clock e.zone = max (d.clock e.zone) op.reservationEnd
  emitted_apart : ∀ e zone, e.zone ≠ zone → (d.emit e).clock zone = d.clock zone
  folded : ∀ op zone, op.zone ≠ zone → (d.applyNow op).clock zone = d.clock zone
  delivered : ∀ op zone, op.zone ≠ zone → (∀ held ∈ d.buffer, held.zone ≠ zone) →
    (d.apply op).clock zone = d.clock zone

theorem InSpace.lamportSound (h : d.InSpace) : d.LamportSound where
  clocks := h.clocks
  listed id l hList := countedRuns_of_within (h.content.lists id l hList)
  written id t hText := countedRuns_of_within (h.content.texts id t hText)
  refused e := by
    unfold emitted
    rw [mintPosition_eq (span_pos e.kind)]
    by_cases hRefused : d.mintRefused = true
    · simp [hRefused]
    · rw [if_neg hRefused]
      split <;> simp_all
  spent _ := emit_of_emitted_eq_none
  minted e op hEmitted := by
    obtain ⟨hMinted, -, hStart⟩ := emitted_spec hEmitted
    obtain ⟨hClock, hZone⟩ := clock_emit hEmitted e.zone
    refine ⟨Op.exact_of_isAdmissible (isAdmissible_of_emitted hEmitted).1, ?_, ?_⟩
    · rw [← hStart, ← hMinted.2.1, ← hMinted.2.2.1]
    · rw [hClock, if_pos hZone.symm]
  emitted_apart _ _ := clock_emit_of_ne
  folded op zone hOp := (carried_clock zone _).applyNow rfl hOp
  delivered op zone hOp hBuffer := ((carried_clock zone _).apply ⟨rfl, hBuffer⟩ fun _ => hOp).1

/-- Every op the history delivers or mints is the one its id names. -/
def Matches [TxDigest] (U : OpId → Op) (d : Document Content) (passages : List Passage) : Prop :=
  d.SuppliesAll (Names U) (fun d e => ∀ op, d.emitted e = some op → Names U op) passages

theorem Matches.level [TxDigest] {client : ClientId} {passages : List Passage}
    (h : Matches U (new client Content.new) passages) :
    ((new client Content.new).history passages).Level U := by
  have hNew : (new client Content.new).Level U := by
    intro zone
    cases zone with
    | none => rfl
    | some zone =>
      change min (((∅ : ExtTreeMap Nat Nat compare)[zone]?).getD 0) _ = 0
      simp
  exact (carried_level.history (fun hNames h => h.emit hNames) (fun h _ zone => h zone)
    ⟨hNew, fun op hOp => absurd hOp List.not_mem_nil⟩ h).1

end Histories

section

variable [IdBytes] [TxDigest]

/-- Lamport arithmetic stays inside the space for every admissible op and in every state of every
history, and two replicas that folded the same ops agree on every clock up to the wire ceiling. -/
theorem lamports_stay_exact :
    (∀ op : Op, op.isAdmissible = true → op.Exact) ∧
    (∀ (start : Document Content) (passages : List Passage), start.Begins →
      (start.history passages).LamportSound ∧
        (∀ edits, ((start.history passages).openTransact.emitAll edits).LamportSound) ∧
          ∀ isAtomic edits, (((start.history passages).openReplay isAtomic).emitAll edits).LamportSound) ∧
    ∀ (U : OpId → Op) (client client' : ClientId) (passages passages' : List Passage),
      Matches U (new client Content.new) passages → Matches U (new client' Content.new) passages' →
      ((new client Content.new).history passages).seen =
        ((new client' Content.new).history passages').seen →
      ∀ zone, min (((new client Content.new).history passages).clock zone) LAMPORT_WIRE_CEILING =
        min (((new client' Content.new).history passages').clock zone) LAMPORT_WIRE_CEILING := by
  have hAll {d : Document Content} (h : d.Upholds InSpace fun op => op.isAdmissible = true)
      (edits : List Edit) : (d.emitAll edits).LamportSound :=
    (Carried.emitAll (fun _ h => h.emit) h (eachEdit_true d edits)).1.lamportSound
  refine ⟨fun op => Op.exact_of_isAdmissible, fun start passages hStart => ?_, ?_⟩
  · have hd := hStart.history passages
    refine ⟨hd.1.lamportSound, fun edits => ?_, fun isAtomic edits => ?_⟩
    · exact hAll (carried_inSpace.openTransact hd) edits
    · exact hAll (carried_inSpace.openReplay hd isAtomic) edits
  · intro U client client' passages passages' hMine hTheirs hSeen zone
    rw [hMine.level, hTheirs.level, hSeen]

end

section Examples

local instance clockIdBytes : IdBytes := IdBytes.spelled
local instance clockTxDigest : TxDigest := ⟨List.sum⟩

/-- A third client's write at the wire ceiling. -/
def atCeiling : Op :=
  ⟨⟨⟨9⟩, 0⟩, ⟨LAMPORT_WIRE_CEILING, ⟨9⟩, 0⟩, ROOT_ID, .mapDelete [1], none, none⟩

/-- The author's write after it. -/
def pastCeiling : Op :=
  ⟨⟨⟨1⟩, 0⟩, ⟨LAMPORT_WIRE_CEILING + 1, ⟨1⟩, 0⟩, ROOT_ID, .mapDelete [2], none, none⟩

def ceilingOps (id : OpId) : Op := if id = atCeiling.id then atCeiling else pastCeiling

def ceilingMinted : List Passage := [.act (.apply atCeiling), .act (.transact [⟨ROOT_ID, .mapDelete [2], none⟩])]

def ceilingReceived : List Passage := [.act (.apply atCeiling), .act (.apply pastCeiling)]

theorem ceilingMinted_matches : Matches ceilingOps (new ⟨1⟩ Content.new) ceilingMinted := by
  refine ⟨fun _ => ⟨rfl, rfl⟩, ⟨fun op hEmitted => ?_, trivial⟩, trivial⟩
  have hMinted : (((new ⟨1⟩ Content.new).passing (.act (.apply atCeiling))).openTransact.emitted
      ⟨ROOT_ID, .mapDelete [2], none⟩).all fun op =>
        op.id = pastCeiling.id ∧ op.zone = none ∧ op.reservationEnd = pastCeiling.reservationEnd := by
    decide +kernel
  rw [hEmitted] at hMinted
  obtain ⟨hId, hZone, hEnd⟩ := of_decide_eq_true hMinted
  have hNamed : ceilingOps op.id = pastCeiling := by
    rw [hId]
    rfl
  exact ⟨by rw [hNamed, hZone]; rfl, by rw [hNamed, hEnd]⟩

theorem ceilingReceived_matches : Matches ceilingOps (new ⟨2⟩ Content.new) ceilingReceived :=
  ⟨fun _ => ⟨rfl, rfl⟩, fun _ => ⟨rfl, rfl⟩, trivial⟩

/-- The author's clock follows its own mint past the wire ceiling, its peer's does not. -/
theorem clocks_part_past_the_wire_ceiling :
    ¬∀ (U : OpId → Op) (client client' : ClientId) (passages passages' : List Passage),
      Matches U (new client Content.new) passages → Matches U (new client' Content.new) passages' →
      ((new client Content.new).history passages).seen =
        ((new client' Content.new).history passages').seen →
      ∀ zone, ((new client Content.new).history passages).clock zone =
        ((new client' Content.new).history passages').clock zone := by
  intro h
  have hSeen : ((new ⟨1⟩ Content.new).history ceilingMinted).seen =
      ((new ⟨2⟩ Content.new).history ceilingReceived).seen := by decide +kernel
  have hParted : ((new ⟨1⟩ Content.new).history ceilingMinted).clock none ≠
      ((new ⟨2⟩ Content.new).history ceilingReceived).clock none := by decide +kernel
  exact hParted (h ceilingOps ⟨1⟩ ⟨2⟩ ceilingMinted ceilingReceived ceilingMinted_matches ceilingReceived_matches hSeen none)

theorem lamports_stay_exact_at_the_ceiling :
    atCeiling.Exact ∧ ((new ⟨1⟩ Content.new).history ceilingMinted).LamportSound ∧
      min (((new ⟨1⟩ Content.new).history ceilingMinted).clock none) LAMPORT_WIRE_CEILING =
        min (((new ⟨2⟩ Content.new).history ceilingReceived).clock none) LAMPORT_WIRE_CEILING :=
  ⟨lamports_stay_exact.1 atCeiling (by decide +kernel),
    (lamports_stay_exact.2.1 _ ceilingMinted (.empty ⟨1⟩)).1,
    lamports_stay_exact.2.2 ceilingOps ⟨1⟩ ⟨2⟩ ceilingMinted ceilingReceived ceilingMinted_matches ceilingReceived_matches
      (by decide +kernel) none⟩

end Examples

end Document

end CrdtSync
