import CrdtSync.Lib.Positions
import CrdtSync.Server.StreamTrees

/-!
# Positions in a stream

A branch's positions run through the default branch's retained log up to the fork point and on
through its own tail. A catch-up delta is what lies above a cursor, and a partition's head is
the last position it admits.
-/

namespace CrdtSync

namespace Server

open Lib (numbered above between latest Ascending)

variable {σ : Type}

namespace StoredHub

/-- The records a stream keeps, each with its position. -/
def positions (h : StoredHub σ) (room : RoomId) (branch : Bytes) : List (StoredOp × Nat) :=
  let main := numbered (floor (h.rooms room)) (retained (h.rooms room))
  if branch = MAIN_BRANCH then main
  else
    match (h.branches room).branch branch with
    | none => []
    | some b =>
      (if h.ownsBase room branch then [] else main.filter fun entry => entry.2 ≤ b.forkPoint) ++
        numbered b.forkPoint (h.branchLogs room branch).ops

/-- Scan one segment's records down from its last position for one above `head` that a
partition admits. -/
def segmentHead (admits : Option Nat → Bool) (head base upper : Nat) (recs : List StoredOp) :
    Nat :=
  let span := upper - base
  let stop := if span ≥ recs.length then recs.length else span
  latest (fun rec => admits rec.op.zone) head (numbered base (recs.take stop)).reverse

/-- The highest position of a stream, at most `through`, whose op a partition admits. -/
def partitionHead (h : StoredHub σ) (room : RoomId) (branch : Bytes) (through : Nat)
    (admits : Option Nat → Bool) : Nat :=
  if branch.isEmpty ∨ branch = MAIN_BRANCH then
    match h.rooms room with
    | none => 0
    | some r => segmentHead admits 0 r.baseSeq through r.log
  else
    match (h.branches room).branch branch with
    | none => 0
    | some b =>
      let head := segmentHead admits 0 b.forkPoint through (h.branchLogs room branch).ops
      if h.ownsBase room branch then head
      else
        match h.rooms room with
        | none => head
        | some r => segmentHead admits head r.baseSeq (min through b.forkPoint) r.log

variable {h : StoredHub σ} {room : RoomId} {branch : Bytes}

/-! ### Deltas -/

section Deltas

theorem positions_ascending (h : StoredHub σ) (room : RoomId) (branch : Bytes) :
    Ascending (h.positions room branch) := by
  unfold positions
  have hMain := Lib.numbered_ascending (floor (h.rooms room)) (retained (h.rooms room))
  dsimp only
  split
  · exact hMain
  · split
    · exact List.Pairwise.nil
    · next b _ =>
      refine Ascending.append b.forkPoint ?_ (Lib.numbered_ascending ..) ?_
        fun entry hEntry => (Lib.mem_numbered_bounds hEntry).1
      · split
        · exact List.Pairwise.nil
        · exact hMain.filter _
      · intro entry hEntry
        split at hEntry
        · cases hEntry
        · exact of_decide_eq_true (List.mem_filter.mp hEntry).2

theorem sharedBase_eq_above (r : LoggedRoom σ) (forkPoint s : Nat) :
    sharedBase r (min forkPoint r.head) s =
      above s ((numbered r.baseSeq r.log).filter fun entry => entry.2 ≤ forkPoint) := by
  rw [Lib.numbered_filter_le, Lib.above_numbered]
  unfold LoggedRoom.head sharedBase
  split
  · next hWindow =>
    rw [show max s r.baseSeq - r.baseSeq = s - r.baseSeq by omega]
    obtain hPast | hWithin := le_total forkPoint (r.baseSeq + r.log.length)
    · rw [min_eq_left hPast]
    · rw [min_eq_right hWithin, Nat.add_sub_cancel_left, List.take_length,
        List.take_of_length_le (by omega)]
  · next hEmpty =>
    refine (List.drop_eq_nil_of_le ?_).symm
    rw [List.length_take]
    omega

theorem delta_eq_above [Folds σ] {s : Nat} {delta : List StoredOp}
    (hDelta : h.catchUpBranch room branch s = .ops delta) :
    delta = above s (h.positions room branch) := by
  unfold catchUpBranch at hDelta
  unfold positions
  dsimp only
  by_cases hMain : branch = MAIN_BRANCH
  · rw [if_pos hMain, Lib.above_numbered]
    rw [if_pos hMain] at hDelta
    unfold catchUp at hDelta
    unfold floor retained
    cases hRoom : h.rooms room with
    | none =>
      simp only [hRoom] at hDelta
      cases hDelta
      simp
    | some r =>
      simp only [hRoom] at hDelta
      split at hDelta
      · cases hDelta
      · cases hDelta
        rfl
  · rw [if_neg hMain]
    rw [if_neg hMain] at hDelta
    cases hBranch : (h.branches room).branch branch with
    | none =>
      simp only [hBranch] at hDelta
      cases hDelta
      rfl
    | some b =>
      simp only [hBranch] at hDelta ⊢
      rw [Lib.above_append, Lib.above_numbered]
      by_cases hOwned : h.ownsBase room branch = true
      · rw [if_pos hOwned] at hDelta ⊢
        split at hDelta
        · split at hDelta
          · cases hDelta
          · cases hDelta
        · cases hDelta
          rfl
      · rw [if_neg hOwned] at hDelta ⊢
        unfold floor retained
        cases hRoom : h.rooms room with
        | none =>
          simp only [hRoom] at hDelta
          cases hDelta
          simp [numbered, above]
        | some r =>
          simp only [hRoom] at hDelta
          split at hDelta
          · cases hDelta
          · cases hDelta
            rw [sharedBase_eq_above]
            rfl

end Deltas

/-! ### Heads of partitions -/

section Heads

variable {admits : Option Nat → Bool}

/-- The positions of a log, at most `upper`, that a partition admits. -/
def Admitted (admits : Option Nat → Bool) (upper : Nat) (l : List (StoredOp × Nat)) : Set Nat :=
  {p | ∃ rec, (rec, p) ∈ l ∧ p ≤ upper ∧ admits rec.op.zone = true}

theorem admitted_append (upper : Nat) (l l' : List (StoredOp × Nat)) :
    Admitted admits upper (l ++ l') = Admitted admits upper l ∪ Admitted admits upper l' := by
  ext p
  constructor
  · rintro ⟨rec, hRec, hp⟩
    obtain hLeft | hRight := List.mem_append.mp hRec
    · exact .inl ⟨rec, hLeft, hp⟩
    · exact .inr ⟨rec, hRight, hp⟩
  · rintro (⟨rec, hRec, hp⟩ | ⟨rec, hRec, hp⟩)
    · exact ⟨rec, List.mem_append_left _ hRec, hp⟩
    · exact ⟨rec, List.mem_append_right _ hRec, hp⟩

theorem admitted_filter_le (upper bound : Nat) (l : List (StoredOp × Nat)) :
    Admitted admits upper (l.filter fun entry => entry.2 ≤ bound) =
      Admitted admits (min upper bound) l := by
  ext p
  constructor
  · rintro ⟨rec, hRec, hUpper, hAdmits⟩
    obtain ⟨hRec, hBound⟩ := List.mem_filter.mp hRec
    exact ⟨rec, hRec, le_min hUpper (of_decide_eq_true hBound), hAdmits⟩
  · rintro ⟨rec, hRec, hMin, hAdmits⟩
    obtain ⟨hUpper, hBound⟩ := le_min_iff.mp hMin
    exact ⟨rec, List.mem_filter.mpr ⟨hRec, decide_eq_true hBound⟩, hUpper, hAdmits⟩

theorem isGreatest_segmentHead (admits : Option Nat → Bool) (head base upper : Nat) (recs : List StoredOp) :
    IsGreatest ({head} ∪ Admitted admits upper (numbered base recs))
      (segmentHead admits head base upper recs) := by
  unfold segmentHead
  dsimp only
  have hStop : recs.take (if upper - base ≥ recs.length then recs.length else upper - base) =
      recs.take (upper - base) := by
    split
    · next hAll => rw [List.take_length, List.take_of_length_le hAll]
    · rfl
  rw [hStop, ← Lib.numbered_filter_le]
  have hDown : ((numbered base recs).filter fun entry => entry.2 ≤ upper).reverse.Pairwise
      fun a b => b.2 < a.2 :=
    List.pairwise_reverse.mpr ((Lib.numbered_ascending base recs).filter _)
  convert Lib.isGreatest_latest (fun rec => admits rec.op.zone) head hDown using 1
  ext p
  simp [Admitted, and_assoc]

theorem isGreatest_union {s t : Set Nat} {head p : Nat} (hHead : IsGreatest s head)
    (hNext : IsGreatest ({head} ∪ t) p) : IsGreatest (s ∪ t) p := by
  refine ⟨?_, ?_⟩
  · obtain hSame | hIn := hNext.1
    · exact .inl (hSame ▸ hHead.1)
    · exact .inr hIn
  · rintro q (hq | hq)
    · exact (hHead.2 hq).trans (hNext.2 (.inl rfl))
    · exact hNext.2 (.inr hq)

theorem isGreatest_partitionHead (h : StoredHub σ) (room : RoomId) {branch : Bytes}
    (hNamed : branch ≠ []) (through : Nat) (admits : Option Nat → Bool) :
    IsGreatest ({0} ∪ Admitted admits through (h.positions room branch))
      (h.partitionHead room branch through admits) := by
  have hSome : ¬branch.isEmpty = true := by simpa using hNamed
  have hZero : IsGreatest ({0} ∪ Admitted admits through []) 0 := by
    simp [Admitted]
  unfold partitionHead positions
  by_cases hMain : branch = MAIN_BRANCH
  · have hEither : branch.isEmpty = true ∨ branch = MAIN_BRANCH := .inr hMain
    rw [if_pos hEither, if_pos hMain]
    unfold floor retained
    cases h.rooms room with
    | none => exact hZero
    | some r => exact isGreatest_segmentHead admits ..
  · rw [if_neg (not_or_intro hSome hMain), if_neg hMain]
    cases (h.branches room).branch branch with
    | none => exact hZero
    | some b =>
      dsimp only
      have hTail := isGreatest_segmentHead admits 0 b.forkPoint through
        (h.branchLogs room branch).ops
      by_cases hOwned : h.ownsBase room branch = true
      · rw [if_pos hOwned, if_pos hOwned]
        exact hTail
      · rw [if_neg hOwned, if_neg hOwned]
        unfold floor retained
        cases h.rooms room with
        | none => simpa [numbered] using hTail
        | some r =>
          have hBoth := isGreatest_union hTail (isGreatest_segmentHead admits _
            r.baseSeq (min through b.forkPoint) r.log)
          rwa [Set.union_assoc, Set.union_comm (Admitted admits through _),
            ← admitted_filter_le, ← admitted_append] at hBoth

end Heads

/-! ### Ids -/

section Ids

/-- The ids of a stream's two logs are distinct in each of them. -/
def BranchStream.Once (s : BranchStream σ) : Prop :=
  Deduped (retained s.main) (logged s.main) ∧ Deduped s.tail.ops s.tail.seen

def Once (h : StoredHub σ) : Prop := ∀ r n, BranchStream.Once (h.stream r n)

variable [Folds σ] {faults : Faults} {call : HubCall σ}

/-- The step. -/
theorem Once.perform (hOnce : h.Once) (faults : Faults) (call : HubCall σ) :
    (h.perform faults call).2.Once := by
  cases h.perform_effect faults call with
  | rooms hGoesOn =>
    intro r n
    rw [hGoesOn.streams]
    refine ⟨?_, (hOnce r n).2⟩
    by_cases hSeat : h.seat faults call = some r
    · change Deduped (retained ((h.perform faults call).2.rooms r)) _
      rw [hGoesOn.seats r hSeat]
      exact .nil _
    · exact (hGoesOn.goesOn r hSeat).deduped (hOnce r n).1
  | appended hNamed hPointer hFresh hHead hSet =>
    obtain ⟨hMain, hTail⟩ := hOnce _ _
    refine hSet.all (P := fun _ => BranchStream.Once) hOnce ⟨hMain, ?_⟩
    rw [hFresh]
    exact hTail.push (nodup_freshRecords ..) fun rec hRec => (mem_freshRecords hRec).1
  | forked hOk hFree hSet => exact hSet.all (P := fun _ => BranchStream.Once) hOnce (hOnce _ _)
  | renamed hOk hNamed hFree hSource hSet =>
    intro r n
    rw [hSet]
    split
    · exact hOnce _ _
    · split
      · exact hOnce _ _
      · exact hOnce r n
  | @deleted room name _ hOk hSet =>
    exact hSet.all (P := fun _ => BranchStream.Once) hOnce ⟨(hOnce room name).1, .nil _⟩
  | based hCall hBase hVersion hFree hSet =>
    exact hSet.all (P := fun _ => BranchStream.Once) hOnce (hOnce _ _)
  | unbased hCall hBase hSet =>
    exact hSet.all (P := fun _ => BranchStream.Once) hOnce (hOnce _ _)
  | @published room published _ b state history hBase hState hFork hHead hSet =>
    exact hSet.all (P := fun _ => BranchStream.Once) hOnce ⟨(hOnce room published).1, .nil _⟩

theorem Once.run (calls : List (HubCall σ × Faults)) (hOnce : h.Once) : (h.run calls).Once := by
  induction calls generalizing h with
  | nil => exact hOnce
  | cons c calls ih => exact ih (hOnce.perform c.2 c.1)

omit [Folds σ] in
/-- An id that a branch's stream holds twice is held once on each side of the fork point. -/
theorem Once.fork_between (hOnce : h.Once) {b : Branch} (hNamed : branch ≠ MAIN_BRANCH)
    (hBranch : (h.branches room).branch branch = some b) {rec rec' : StoredOp} {p q : Nat}
    (hp : (rec, p) ∈ h.positions room branch) (hq : (rec', q) ∈ h.positions room branch)
    (hSame : rec.op.id = rec'.op.id) (hLess : p < q) : p ≤ b.forkPoint ∧ b.forkPoint < q := by
  obtain ⟨hMain, hTail⟩ := hOnce room branch
  unfold positions at hp hq
  simp only [if_neg hNamed, hBranch] at hp hq
  have hBase {entry : StoredOp × Nat} (hEntry : entry ∈ if h.ownsBase room branch then [] else
      (numbered (floor (h.rooms room)) (retained (h.rooms room))).filter
        fun entry => entry.2 ≤ b.forkPoint) :
      entry ∈ numbered (floor (h.rooms room)) (retained (h.rooms room)) ∧
        entry.2 ≤ b.forkPoint := by
    split at hEntry
    · cases hEntry
    · obtain ⟨hIn, hBound⟩ := List.mem_filter.mp hEntry
      exact ⟨hIn, of_decide_eq_true hBound⟩
  obtain hp | hp := List.mem_append.mp hp
  · obtain hq | hq := List.mem_append.mp hq
    · have hEq := Lib.numbered_inj hMain.once (hBase hp).1 (hBase hq).1 hSame
      omega
    · exact ⟨(hBase hp).2, (Lib.mem_numbered_bounds hq).1⟩
  · have hAbove := (Lib.mem_numbered_bounds hp).1
    obtain hq | hq := List.mem_append.mp hq
    · have hBelow := (hBase hq).2
      dsimp only at hAbove hBelow
      omega
    · have hEq := Lib.numbered_inj hTail.once hp hq hSame
      omega

end Ids

/-! ### Heads of branches -/

section BranchHeads

/-- A branch's head is its fork point and the length of its tail, and no tail is left behind. -/
def BranchStream.Headed (s : BranchStream σ) : Prop :=
  (∀ b, s.pointer = some b → b.head = b.forkPoint + s.tail.ops.length) ∧
    (s.pointer = none → s.tail.ops = [])

def Headed (h : StoredHub σ) : Prop :=
  ∀ r n, n ≠ MAIN_BRANCH → BranchStream.Headed (h.stream r n)

/-- A rename leaves no tail behind, and a branch write moves its pointer. -/
def Carries (h : StoredHub σ) (faults : Faults) : HubCall σ → Prop
  | .renameBranch room source _ => (h.branchLogs room source).ops = []
  | .ingestBranch _ _ _ _ => faults .writeBranches = false
  | _ => True

variable [Folds σ] {faults : Faults} {call : HubCall σ}

def CarriesAll (h : StoredHub σ) : List (HubCall σ × Faults) → Prop
  | [] => True
  | c :: calls => h.Carries c.2 c.1 ∧ (h.perform c.2 c.1).2.CarriesAll calls

/-- The step. -/
theorem Headed.perform (hHeaded : h.Headed) (hCarries : h.Carries faults call) :
    (h.perform faults call).2.Headed := by
  let P := fun (n : Bytes) (s : BranchStream σ) => n ≠ MAIN_BRANCH → BranchStream.Headed s
  cases h.perform_effect faults call with
  | rooms hGoesOn =>
    intro r n hNamed
    rw [hGoesOn.streams]
    exact hHeaded r n hNamed
  | appended hNamed hPointer hFresh hHead hSet =>
    refine hSet.all (P := P) hHeaded fun _ => ⟨fun b' hb' => ?_, fun hb' => by cases hb'⟩
    obtain rfl := Option.some.inj hb'
    exact hHead hCarries
  | forked hOk hFree hSet =>
    refine hSet.all (P := P) hHeaded fun hNamed => ⟨fun b hb => ?_, fun hb => by cases hb⟩
    obtain rfl := Option.some.inj hb
    have hEmpty := (hHeaded _ _ hNamed).2 hFree
    dsimp only
    rw [hEmpty]
    rfl
  | @renamed room source target _ b hOk hMain hFree hSource hSet =>
    have hMoved : b.head = b.forkPoint := by
      have hHead := (hHeaded room source hMain).1 b hSource
      have hNone : (h.stream room source).tail.ops = [] := hCarries
      rwa [hNone] at hHead
    intro r n hNamed
    rw [hSet]
    split
    · next hHere =>
      refine ⟨fun b' hb' => ?_, fun hb' => by cases hb'⟩
      obtain rfl := Option.some.inj hb'
      have hEmpty := (hHeaded room target (hHere.2 ▸ hNamed)).2 hFree
      dsimp only
      rw [hEmpty]
      exact hMoved
    · split
      · next hHere =>
        refine ⟨fun b' hb' => (by cases hb'), fun _ => ?_⟩
        exact hCarries
      · exact hHeaded r n hNamed
  | deleted hOk hSet =>
    exact hSet.all (P := P) hHeaded fun _ => ⟨fun b hb => (by cases hb), fun _ => rfl⟩
  | based hCall hBase hVersion hFree hSet =>
    refine hSet.all (P := P) hHeaded fun hNamed => ⟨fun b hb => ?_, fun hb => by cases hb⟩
    obtain rfl := Option.some.inj hb
    have hEmpty := (hHeaded _ _ hNamed).2 hFree
    dsimp only
    rw [hEmpty]
    rfl
  | unbased hCall hBase hSet =>
    exact hSet.all (P := P) hHeaded fun hNamed => hHeaded _ _ hNamed
  | published hBase hState hFork hHead hSet =>
    refine hSet.all (P := P) hHeaded fun _ => ⟨fun b hb => ?_, fun hb => by cases hb⟩
    obtain rfl := Option.some.inj hb
    exact hHead.trans hFork.symm

theorem Headed.run (calls : List (HubCall σ × Faults)) (hHeaded : h.Headed)
    (hCarries : h.CarriesAll calls) : (h.run calls).Headed := by
  induction calls generalizing h with
  | nil => exact hHeaded
  | cons c calls ih => exact ih (hHeaded.perform hCarries.1) hCarries.2

omit [Folds σ] in
theorem headed_new (server : ClientId) (content : σ) (threshold : Nat) :
    (new server content threshold).Headed := by
  intro r n hNamed
  refine ⟨fun b hb => ?_, fun _ => rfl⟩
  have hPointer : (BranchRegistry.insert ⟨∅⟩ ⟨MAIN_BRANCH, 0, 0, false⟩).branch n = some b := hb
  rw [BranchRegistry.branch_insert, if_neg hNamed] at hPointer
  cases hPointer

/-- What a stream serves from its start reaches its head, but for the positions between the
default branch's head and a fork point above it. -/
structure ReachesHead (h : StoredHub σ) (room : RoomId) (branch : Bytes) (b : Branch) : Prop where
  head : b.head = b.forkPoint + (h.branchLogs room branch).ops.length
  delta : ∀ delta, h.catchUpBranch room branch 0 = .ops delta →
    delta.length + (b.forkPoint - h.seq room) = b.head
  snapshot : ∀ seq state, h.catchUpBranch room branch 0 = .snapshot seq state → seq = b.head

theorem Headed.reachesHead (hHeaded : h.Headed) {b : Branch} (hNamed : branch ≠ MAIN_BRANCH)
    (hBranch : (h.branches room).branch branch = some b) : h.ReachesHead room branch b := by
  have hHead : b.head = b.forkPoint + (h.branchLogs room branch).ops.length :=
    (hHeaded room branch hNamed).1 b hBranch
  cases hBase : h.branchBases room branch with
  | some base =>
    have hOwned : h.ownsBase room branch = true := by rw [ownsBase, hBase]; rfl
    have hServed : h.catchUpBranch room branch 0 =
        if 0 < b.forkPoint then
          (based base (h.branchLogs room branch).ops).elim .unavailable fun doc =>
            .snapshot (b.forkPoint + (h.branchLogs room branch).ops.length) doc.toDocState
        else .ops (h.branchLogs room branch).ops := by
      unfold catchUpBranch
      simp only [if_neg hNamed, hBranch, hOwned, if_true, ownedBaseDoc_eq hBase, Nat.zero_sub,
        List.drop_zero]
      cases based base (h.branchLogs room branch).ops <;> rfl
    rw [← hHead] at hServed
    refine ⟨hHead, fun delta hDelta => ?_, fun seq state hSnapshot => ?_⟩
    · rw [hServed] at hDelta
      split at hDelta
      · cases hBased : based base (h.branchLogs room branch).ops <;> rw [hBased] at hDelta <;> cases hDelta
      · cases hDelta
        omega
    · rw [hServed] at hSnapshot
      split at hSnapshot
      · cases hBased : based base (h.branchLogs room branch).ops with
        | none =>
          rw [hBased] at hSnapshot
          cases hSnapshot
        | some doc =>
          rw [hBased] at hSnapshot
          cases hSnapshot
          rfl
      · cases hSnapshot
  | none =>
    have hServed := catchUpBranch_shared hNamed hBranch hBase
    refine ⟨hHead, fun delta hDelta => ?_, fun seq state hSnapshot => ?_⟩
    · rw [hServed] at hDelta
      split at hDelta
      · cases hDelta
      · next hWhole =>
        cases hDelta
        have hLength := window_le_of_not_clipped hWhole
        rw [List.length_append, List.length_take, min_eq_left hLength, hHead]
        unfold window
        dsimp only
        omega
    · rw [hServed] at hSnapshot
      split at hSnapshot
      · cases hSnapshot
      · cases hSnapshot

/-- A delta splits at any later cursor into the records between and the later delta; an id
that a branch holds twice is held on both sides of its fork point; a stream from its start
reaches its head; and a partition's head is the greatest of its positions. -/
theorem branch_positions_in_order (server : ClientId) (content : σ) (threshold : Nat)
    (calls : List (HubCall σ × Faults)) :
    let h := (new server content threshold).run calls
    (∀ room branch s t delta later, s ≤ t → h.catchUpBranch room branch s = .ops delta →
      h.catchUpBranch room branch t = .ops later →
        delta = between s t (h.positions room branch) ++ later) ∧
    (∀ room branch b rec p rec' q, branch ≠ MAIN_BRANCH →
      (h.branches room).branch branch = some b → (rec, p) ∈ h.positions room branch →
        (rec', q) ∈ h.positions room branch → rec.op.id = rec'.op.id → p < q →
          p ≤ b.forkPoint ∧ b.forkPoint < q) ∧
    ((new server content threshold).CarriesAll calls → ∀ room branch b, branch ≠ MAIN_BRANCH →
      (h.branches room).branch branch = some b → h.ReachesHead room branch b) ∧
    ∀ room branch through admits, branch ≠ [] →
      IsGreatest ({0} ∪ Admitted admits through (h.positions room branch))
        (h.partitionHead room branch through admits) ∧
      ∀ later, through ≤ later → h.partitionHead room branch through admits ≤
        h.partitionHead room branch later admits := by
  intro h
  have hOnce : h.Once := Once.run calls fun r n => ⟨.nil _, .nil _⟩
  refine ⟨?_, ?_, ?_, ?_⟩
  · intro room branch s t delta later hst hDelta hLater
    rw [delta_eq_above hDelta, delta_eq_above hLater]
    exact (h.positions_ascending room branch).above_eq hst
  · intro room branch b rec p rec' q hNamed hBranch hp hq hSame hLess
    exact hOnce.fork_between hNamed hBranch hp hq hSame hLess
  · intro hCarries room branch b hNamed hBranch
    have hHeaded : h.Headed := Headed.run calls (headed_new server content threshold) hCarries
    exact hHeaded.reachesHead hNamed hBranch
  · intro room branch through admits hSome
    have hGreatest := fun through => h.isGreatest_partitionHead room hSome through admits
    refine ⟨hGreatest through, fun later hLater => (hGreatest later).2 ?_⟩
    obtain hZero | ⟨rec, hRec, hBound, hAdmits⟩ := (hGreatest through).1
    · exact .inl hZero
    · exact .inr ⟨rec, hRec, hBound.trans hLater, hAdmits⟩

end BranchHeads

section Witness

local instance positionsIdBytes : IdBytes := IdBytes.spelled

/-- A run over one room whose faults are given call by call. -/
def roomRun (calls : List (HubCall Content × Faults)) : StoredHub Content :=
  (new ⟨9⟩ Content.new 0).run calls

def lands (calls : List (HubCall Content)) : List (HubCall Content × Faults) :=
  calls.map fun call => (call, fun _ => false)

/-- An op of the default branch is written again on a fork that shares it. -/
def rewritten : StoredHub Content :=
  roomRun (lands [.ingest [114] [slotWrite] none, .forkBranch [114] [97] MAIN_BRANCH 1,
    .ingestBranch [114] [97] [slotWrite] none])

/-- A fork taken off a branch whose tail runs past the default branch's head. -/
def outrun : StoredHub Content :=
  roomRun (lands [.forkBranch [114] [97] MAIN_BRANCH 0, .ingestBranch [114] [97] [slotWrite] none,
    .forkBranch [114] [98] [97] 1])

def renamedAway : StoredHub Content :=
  roomRun (lands [.forkBranch [114] [97] MAIN_BRANCH 0, .ingestBranch [114] [97] [slotWrite] none,
    .renameBranch [114] [97] [98]])

/-- A write whose pointer is not persisted. -/
def unpointed : StoredHub Content :=
  roomRun (lands [.forkBranch [114] [98] MAIN_BRANCH 0] ++
    [(.ingestBranch [114] [98] [slotWrite] none, fun call => decide (call = .writeBranches))])

/-- The records a catch-up serves as a delta. -/
def served : BranchCatchup Content → Option (List StoredOp)
  | .ops ops => some ops
  | _ => none

theorem eq_ops_of_served {c : BranchCatchup Content} {delta : List StoredOp}
    (h : served c = some delta) : c = .ops delta := by
  cases c with
  | ops ops => exact congrArg BranchCatchup.ops (Option.some.inj h)
  | snapshot seq state => cases h
  | unavailable => cases h

/-- No id occurs twice in a stream from its start. -/
def ServesOnce (h : StoredHub Content) : Prop :=
  ∀ room branch delta, h.catchUpBranch room branch 0 = .ops delta →
    (delta.map fun rec => rec.op.id).Nodup

/-- A branch's head is the number of positions its stream from the start covers. -/
def CountsHeads (h : StoredHub Content) : Prop :=
  ∀ room branch b delta, branch ≠ MAIN_BRANCH → (h.branches room).branch branch = some b →
    h.catchUpBranch room branch 0 = .ops delta → delta.length = b.head

theorem not_countsHeads {h : StoredHub Content} {n m : Nat}
    (hHead : ((h.branches [114]).branch [98]).map Branch.head = some n)
    (hServed : (served (h.catchUpBranch [114] [98] 0)).map List.length = some m) (hNe : m ≠ n) :
    ¬h.CountsHeads := by
  intro hCounts
  obtain ⟨b, hBranch, rfl⟩ := Option.map_eq_some_iff.mp hHead
  obtain ⟨delta, hDelta, rfl⟩ := Option.map_eq_some_iff.mp hServed
  exact hNe (hCounts [114] [98] b delta (by decide) hBranch (eq_ops_of_served hDelta))

/-- Ids occur twice, and heads are missed: by design where a fork outruns the default branch,
and where a rename or a failed call leaves a pointer behind. -/
theorem streams_repeat_ids_and_miss_heads :
    ¬rewritten.ServesOnce ∧ ¬outrun.CountsHeads ∧ ¬renamedAway.CountsHeads ∧
      ¬unpointed.CountsHeads := by
  refine ⟨fun hOnce => ?_, not_countsHeads (n := 1) (m := 0) ?_ ?_ ?_,
    not_countsHeads (n := 1) (m := 0) ?_ ?_ ?_, not_countsHeads (n := 0) (m := 1) ?_ ?_ ?_⟩
  · have hServed : served (rewritten.catchUpBranch [114] [97] 0) =
        some [⟨slotWrite, none⟩, ⟨slotWrite, none⟩] := by decide +kernel
    have hNodup := hOnce [114] [97] _ (eq_ops_of_served hServed)
    exact absurd hNodup (by decide)
  all_goals decide +kernel

end Witness

end StoredHub

end Server

end CrdtSync
