import CrdtSync.Core.ReadBack
import CrdtSync.Server.Streams

/-!
# Held stream trees

A named branch's document is folded once and held, with the inputs it was folded from: the
fork point, the length of the owned base, the window of the default branch's log and the
length of the tail. What these do not tell apart, the calls that reuse a name retire.
-/

namespace CrdtSync

namespace Server

open Std (ExtTreeMap)

variable {σ : Type}

class EncodedLen (σ : Type) where
  encodedLen : DocState σ → Nat

/-- A named branch's folded document, and the inputs it was folded from. -/
structure StreamTree (σ : Type) where
  doc : Document σ
  forkPoint : Nat
  baseLen : Option Nat
  sharedBase : Option (Nat × Nat)
  tailLen : Nat

structure TreeHub (σ : Type) where
  hub : StoredHub σ
  streamTrees : RoomId → Bytes → Option (StreamTree σ)

namespace StoredHub

/-- The window of the default branch's log a live-log fork reads: its floor, and the fork point
clamped to its head. -/
def window (h : StoredHub σ) (room : RoomId) (forkPoint : Nat) : Nat × Nat :=
  (floor (h.rooms room), min forkPoint (h.seq room))

variable [Folds σ]

/-- Whether a call retires the tree held for a stream. A replica installed in a room retires
all of the room's. -/
def retires (h : StoredHub σ) (faults : Faults) (call : HubCall σ) (r : RoomId) (n : Bytes) :
    Bool :=
  match call with
  | .forkBranch room new source position =>
    r = room && n = new && (h.forkBranch faults room new source position).1.toOption == some true
  | .renameBranch room source target =>
    r = room && (n = source || n = target) &&
      (h.renameBranch faults room source target).1.toOption == some true
  | .deleteBranch room name =>
    r = room && n = name &&
      (h.mutateBranches faults room (·.delete name)).1.toOption == some true
  | .forkBranchFromVersion room new version | .restoreAsBranch room version new =>
    r = room && n = new && (h.versionBase faults room new version).isSome
  | .publish room published => r = room && n = published && h.repoints faults room published
  | call => h.seat faults call = some r

/-- The document a subscriber folds out of what it is served from the start. -/
def caughtUpDoc (h : StoredHub σ) (room : RoomId) (branch : Bytes) : Option (Document σ) :=
  match h.catchUpBranch room branch 0 with
  | .ops ops => some (foldRecords (Document.new h.server h.content) ops)
  | .snapshot _ state => Document.decodeState state
  | .unavailable => none

end StoredHub

namespace TreeHub

def new (hub : StoredHub σ) : TreeHub σ := ⟨hub, fun _ _ => none⟩

def setTree (t : TreeHub σ) (room : RoomId) (branch : Bytes) (tree : Option (StreamTree σ)) :
    TreeHub σ :=
  let trees := Function.update (t.streamTrees room) branch tree
  { t with streamTrees := Function.update t.streamTrees room trees }

variable [Folds σ] [EncodedLen σ]

/-- A held tree stands while its inputs do and its tail has only grown. -/
def extendsTo (tree : StreamTree σ) (forkPoint : Nat) (baseLen : Option Nat)
    (sharedBase : Option (Nat × Nat)) (tailLen : Nat) : Bool :=
  tree.forkPoint = forkPoint && tree.baseLen = baseLen && tree.sharedBase = sharedBase &&
    tree.tailLen ≤ tailLen

/-- The document a stream serves. A tree that stands is folded forward by the tail it lacks,
and any other is folded from scratch. -/
def streamDoc (t : TreeHub σ) (room : RoomId) (branch : Bytes) : Option (Document σ) × TreeHub σ :=
  if branch = MAIN_BRANCH then ((t.hub.rooms room).map LoggedRoom.doc, t)
  else
    match (t.hub.branches room).branch branch with
    | none => (none, t)
    | some b =>
      let baseLen := (t.hub.branchBases room branch).map fun base => EncodedLen.encodedLen base.state
      let sharedBase := if baseLen.isNone then some (t.hub.window room b.forkPoint) else none
      if sharedBase.any fun window => 0 < window.1 ∧ 0 < window.2 then (none, t.setTree room branch none)
      else
        let tail := (t.hub.branchLogs room branch).ops
        let held := (t.streamTrees room branch).filter fun tree =>
          extendsTo tree b.forkPoint baseLen sharedBase tail.length
        match held with
        | none =>
          match t.hub.foldStream room branch with
          | none => (none, t.setTree room branch none)
          | some doc =>
            (some doc, t.setTree room branch
              (some ⟨doc, b.forkPoint, baseLen, sharedBase, tail.length⟩))
        | some tree =>
          if tree.tailLen < tail.length then
            let doc := StoredHub.foldRecords tree.doc (tail.drop tree.tailLen)
            (some doc, t.setTree room branch (some { tree with doc, tailLen := tail.length }))
          else (some tree.doc, t)

end TreeHub

/-- A call on the hub, with the store calls of it that fail, or a read of a stream's document. -/
inductive TreeCall (σ : Type)
  | call (call : HubCall σ) (faults : Faults)
  | read (room : RoomId) (branch : Bytes)

namespace TreeHub

variable [Folds σ] [EncodedLen σ]

def step (t : TreeHub σ) : TreeCall σ → TreeHub σ
  | .call call faults =>
    { hub := (t.hub.perform faults call).2
      streamTrees := fun room branch =>
        if t.hub.retires faults call room branch then none else t.streamTrees room branch }
  | .read room branch => (t.streamDoc room branch).2

def run (t : TreeHub σ) (calls : List (TreeCall σ)) : TreeHub σ := calls.foldl step t

end TreeHub

namespace StoredHub

variable {h h' : StoredHub σ} {room r : RoomId} {name n : Bytes}

/-! ### What a call leaves of a stream's inputs -/

/-- What a stream's fold reads has at most grown. -/
structure Grows (s s' : BranchStream σ) : Prop where
  blank : s'.blank = s.blank
  base : s'.base = s.base
  main : Continues s.main s'.main
  tail : s.tail.ops <+: s'.tail.ops

namespace Grows

theorem refl (s : BranchStream σ) : Grows s s := ⟨rfl, rfl, .refl _, List.prefix_rfl⟩

theorem of_goesOn {seated : Option RoomId} (hGoesOn : h.GoesOn h' seated) (hr : seated ≠ some r) :
    Grows (h.stream r n) (h'.stream r n) := by
  rw [hGoesOn.streams]
  exact ⟨rfl, rfl, hGoesOn.goesOn r hr, List.prefix_rfl⟩

theorem of_restreams {s : BranchStream σ} (hSet : h.Restreams h' room name s)
    (hGrows : r = room ∧ n = name → Grows (h.stream room name) s) :
    Grows (h.stream r n) (h'.stream r n) := by
  by_cases hHere : r = room ∧ n = name
  · rw [hSet, if_pos hHere, hHere.1, hHere.2]
    exact hGrows hHere
  · rw [hSet.of_ne hHere]
    exact refl _

end Grows

variable [Folds σ]

/-- The step: a call retires a stream's tree, or its inputs have at most grown. -/
theorem perform_grows (h : StoredHub σ) (faults : Faults) (call : HubCall σ) (r : RoomId)
    (n : Bytes) (hKept : h.retires faults call r n = false) :
    Grows (h.stream r n) ((h.perform faults call).2.stream r n) := by
  cases h.perform_effect faults call with
  | rooms hGoesOn =>
    refine .of_goesOn hGoesOn fun hSeat => ?_
    have hRetired : h.retires faults call r n = true := by
      cases call with
      | importRoom | installSnapshot | cloneRoom => exact decide_eq_true hSeat
      | _ => cases hSeat
    exact absurd (hKept.symm.trans hRetired) (by simp)
  | appended hNamed hPointer hFresh hHead hSet =>
    exact .of_restreams hSet fun _ => ⟨rfl, rfl, .refl _, BranchLog.prefix_foldl_push ..⟩
  | forked hOk hFree hSet =>
    refine .of_restreams hSet fun hHere => ?_
    simp [retires, hOk, hHere, Except.toOption] at hKept
  | @renamed room source target _ b hOk hNamed hFree hSource hSet =>
    have hOther : ¬(r = room ∧ (n = source ∨ n = target)) := by
      rintro ⟨rfl, hName⟩
      obtain rfl | rfl := hName
      · simp [retires, hOk, Except.toOption] at hKept
      · simp [retires, hOk, Except.toOption] at hKept
    rw [hSet, if_neg fun hHere => hOther ⟨hHere.1, .inr hHere.2⟩,
      if_neg fun hHere => hOther ⟨hHere.1, .inl hHere.2⟩]
    exact .refl _
  | deleted hOk hSet =>
    refine .of_restreams hSet fun hHere => ?_
    simp [retires, hOk, hHere, Except.toOption] at hKept
  | based hCall hBase hVersion hFree hSet =>
    refine .of_restreams hSet fun hHere => ?_
    obtain rfl | rfl := hCall
    · simp [retires, hBase, hHere] at hKept
    · simp [retires, hBase, hHere] at hKept
  | unbased hCall hBase hSet =>
    refine .of_restreams hSet fun hHere => ?_
    obtain rfl | rfl := hCall
    · simp [retires, hBase, hHere] at hKept
    · simp [retires, hBase, hHere] at hKept
  | published hBase hState hFork hHead hSet =>
    refine .of_restreams hSet fun hHere => ?_
    simp [retires, hBase, hHere] at hKept

/-! ### What a fold is made of -/

section Folding

theorem foldRecords_append (d : Document σ) (recs more : List StoredOp) :
    foldRecords d (recs ++ more) = foldRecords (foldRecords d recs) more := List.foldl_append ..

/-- A branch's base with records folded in, if the base decodes. -/
def based (base : Base σ) (recs : List StoredOp) : Option (Document σ) :=
  (Document.decodeState base.state).map fun doc => foldRecords doc recs

/-- A named branch's fold: its base, or the window of the default branch's log, then its tail. -/
def folded (s : BranchStream σ) (baseEnd : Nat) : Option (Document σ) :=
  match s.base with
  | some base => based base s.tail.ops
  | none => some (foldRecords s.blank ((retained s.main).take baseEnd ++ s.tail.ops))

variable {h : StoredHub σ} {room : RoomId} {branch : Bytes} {b : Branch}

omit [Folds σ] in
theorem branch_of_pointer (hNamed : branch ≠ MAIN_BRANCH)
    (hBranch : (h.branches room).branch branch = some b) : h.branch room branch = some b := by
  unfold StoredHub.branch observedBranches BranchRegistry.setMainHead
  split
  · exact hBranch
  · unfold BranchRegistry.branch at hBranch ⊢
    rw [ExtTreeMap.getElem?_insert, if_neg]
    · exact hBranch
    · rw [Std.LawfulEqCmp.compare_eq_iff_eq]
      exact fun hEq => hNamed hEq.symm

/-- Whether the default branch's floor has passed a shared base. -/
def clipped (h : StoredHub σ) (room : RoomId) (forkPoint : Nat) : Prop :=
  0 < (h.window room forkPoint).1 ∧ 0 < (h.window room forkPoint).2

instance (h : StoredHub σ) (room : RoomId) (forkPoint : Nat) :
    Decidable (h.clipped room forkPoint) := instDecidableAnd

theorem catchUpBranch_shared (hNamed : branch ≠ MAIN_BRANCH)
    (hBranch : (h.branches room).branch branch = some b)
    (hBase : h.branchBases room branch = none) :
    h.catchUpBranch room branch 0 =
      if h.clipped room b.forkPoint then .unavailable
      else .ops ((retained (h.rooms room)).take (h.window room b.forkPoint).2 ++
        (h.branchLogs room branch).ops) := by
  have hOwned : h.ownsBase room branch = false := by rw [ownsBase, hBase]; rfl
  unfold catchUpBranch
  rw [if_neg hNamed, hBranch]
  simp only [hOwned, Bool.false_eq_true, if_false, Nat.zero_sub, List.drop_zero]
  by_cases hClipped : h.clipped room b.forkPoint
  · rw [if_pos hClipped]
    unfold clipped window floor seq at hClipped
    cases hRoom : h.rooms room with
    | none => simp [hRoom] at hClipped
    | some r =>
      simp only [hRoom, Option.elim_some] at hClipped
      exact if_pos (by omega)
  · rw [if_neg hClipped]
    unfold clipped window floor seq at hClipped
    unfold window retained seq
    cases hRoom : h.rooms room with
    | none => simp
    | some r =>
      simp only [hRoom, Option.elim_some] at hClipped ⊢
      rw [if_neg (by omega)]
      unfold sharedBase
      obtain hFloor | hFloor := Nat.eq_zero_or_pos r.baseSeq
      · obtain hEmpty | hSome := Nat.eq_zero_or_pos (min b.forkPoint r.head)
        · simp [hEmpty]
        · rw [if_pos ⟨hSome, by omega⟩]
          simp [hFloor]
      · have hEmpty : min b.forkPoint r.head = 0 := by omega
        simp [hEmpty]

theorem ownedBaseDoc_eq {base : Base σ} (hBase : h.branchBases room branch = some base) :
    h.ownedBaseDoc room branch = based base (h.branchLogs room branch).ops := by
  unfold ownedBaseDoc based
  rw [hBase, Option.bind_eq_bind, Option.bind_some]
  cases Document.decodeState base.state <;> rfl

theorem foldStream_eq (hNamed : branch ≠ MAIN_BRANCH)
    (hBranch : (h.branches room).branch branch = some b) :
    h.foldStream room branch =
      if h.branchBases room branch = none ∧ h.clipped room b.forkPoint then none
      else folded (h.stream room branch) (h.window room b.forkPoint).2 := by
  have hObserved := branch_of_pointer hNamed hBranch
  unfold foldStream folded stream
  rw [hObserved]
  cases hBase : h.branchBases room branch with
  | some base => simp [ownsBase, hBase, ownedBaseDoc_eq hBase]
  | none =>
    have hOwned : h.ownsBase room branch = false := by rw [ownsBase, hBase]; rfl
    simp only [hOwned, Bool.false_eq_true, if_false, catchUpBranch_shared hNamed hBranch hBase,
      true_and]
    by_cases hClipped : h.clipped room b.forkPoint
    · simp only [if_pos hClipped]
    · simp only [if_neg hClipped]

end Folding

section Held

omit [Folds σ] in
theorem seq_eq (h : StoredHub σ) (room : RoomId) :
    h.seq room = floor (h.rooms room) + (retained (h.rooms room)).length := by
  unfold seq floor retained
  cases h.rooms room <;> rfl

omit [Folds σ] in
theorem window_le_of_not_clipped {forkPoint : Nat} (hClipped : ¬h.clipped room forkPoint) :
    (h.window room forkPoint).2 ≤ (retained (h.rooms room)).length := by
  unfold clipped window at hClipped
  unfold window
  rw [seq_eq] at hClipped ⊢
  dsimp only at hClipped ⊢
  omega

/-- A held tree was folded out of what its stream begins with. -/
structure Holds (s : BranchStream σ) (tree : StreamTree σ) : Prop where
  tail : tree.tailLen ≤ s.tail.ops.length
  owned : ∀ base, s.base = some base → based base (s.tail.ops.take tree.tailLen) = some tree.doc
  shared : s.base = none → ∃ window, tree.sharedBase = some window ∧ window.1 ≤ floor s.main ∧
    (window.1 = floor s.main → window.2 ≤ (retained s.main).length ∧
      tree.doc = foldRecords s.blank
        ((retained s.main).take window.2 ++ s.tail.ops.take tree.tailLen))

namespace Holds

variable {s s' : BranchStream σ} {tree : StreamTree σ} {baseEnd : Nat}

/-- The step: a tree still holds of inputs that have grown. -/
theorem grows (hHolds : Holds s tree) (hGrows : Grows s s') : Holds s' tree := by
  obtain ⟨more, hTail⟩ := hGrows.tail
  have hTake : s'.tail.ops.take tree.tailLen = s.tail.ops.take tree.tailLen := by
    rw [← hTail, List.take_append_of_le_length hHolds.tail]
  refine ⟨hHolds.tail.trans hGrows.tail.length_le, fun base hBase => ?_, fun hBase => ?_⟩
  · rw [hTake]
    exact hHolds.owned base (hGrows.base ▸ hBase)
  · obtain ⟨window, hWindow, hFloor, hDoc⟩ := hHolds.shared (hGrows.base ▸ hBase)
    refine ⟨window, hWindow, hFloor.trans hGrows.main.rises, fun hSame => ?_⟩
    have hStands : window.1 = floor s.main :=
      le_antisymm hFloor (hGrows.main.rises.trans_eq hSame.symm)
    obtain ⟨hLength, hDoc⟩ := hDoc hStands
    obtain ⟨later, hLog⟩ := hGrows.main.grows (hSame.symm.trans hStands)
    rw [hTake, hGrows.blank, ← hLog, List.take_append_of_le_length hLength]
    refine ⟨?_, hDoc⟩
    rw [List.length_append]
    omega

/-- What a tree that stands lacks is the tail past its length. -/
theorem forward (hHolds : Holds s tree)
    (hWindow : s.base = none → tree.sharedBase = some (floor s.main, baseEnd)) :
    folded s baseEnd = some (foldRecords tree.doc (s.tail.ops.drop tree.tailLen)) := by
  unfold folded
  cases hBase : s.base with
  | some base =>
    obtain ⟨doc, hDecoded, hDoc⟩ := Option.map_eq_some_iff.mp (hHolds.owned base hBase)
    dsimp only
    rw [based, hDecoded, ← hDoc, ← foldRecords_append, List.take_append_drop, Option.map_some]
  | none =>
    obtain ⟨window, hSome, -, hDoc⟩ := hHolds.shared hBase
    obtain rfl := Option.some.inj (hSome.symm.trans (hWindow hBase))
    rw [(hDoc rfl).2, ← foldRecords_append, List.append_assoc, List.take_append_drop]

theorem whole (tree : StreamTree σ) (hDoc : folded s baseEnd = some tree.doc)
    (hTail : tree.tailLen = s.tail.ops.length)
    (hWindow : s.base = none → tree.sharedBase = some (floor s.main, baseEnd) ∧
      baseEnd ≤ (retained s.main).length) : Holds s tree := by
  have hTake : s.tail.ops.take tree.tailLen = s.tail.ops := by rw [hTail, List.take_length]
  refine ⟨hTail.le, fun base hBase => ?_, fun hBase => ?_⟩
  · rw [hTake, ← hDoc, folded, hBase]
  · obtain ⟨hSome, hLength⟩ := hWindow hBase
    refine ⟨_, hSome, le_rfl, fun _ => ⟨hLength, ?_⟩⟩
    rw [folded, hBase] at hDoc
    rw [hTake, Option.some.inj hDoc]

end Holds

end Held

end StoredHub

namespace TreeHub

open StoredHub (Holds folded)

variable [Folds σ] {t : TreeHub σ} {room : RoomId} {branch : Bytes} {b : Branch}

/-- Every held tree was folded out of what its stream begins with. -/
def Coherent (t : TreeHub σ) : Prop :=
  ∀ r n tree, t.streamTrees r n = some tree → Holds (t.hub.stream r n) tree

theorem Coherent.setTree (hCoherent : t.Coherent) {tree : Option (StreamTree σ)}
    (hTree : ∀ held, tree = some held → Holds (t.hub.stream room branch) held) :
    (t.setTree room branch tree).Coherent := by
  intro r n held hHeld
  unfold TreeHub.setTree at hHeld
  dsimp only at hHeld
  by_cases hRoom : r = room
  · subst hRoom
    by_cases hName : n = branch
    · subst hName
      rw [Function.update_self, Function.update_self] at hHeld
      exact hTree held hHeld
    · rw [Function.update_self, Function.update_of_ne hName] at hHeld
      exact hCoherent r n held hHeld
  · rw [Function.update_of_ne hRoom] at hHeld
    exact hCoherent r n held hHeld

variable [EncodedLen σ]

theorem streamDoc_unknown (hNamed : branch ≠ MAIN_BRANCH)
    (hBranch : (t.hub.branches room).branch branch = none) :
    t.streamDoc room branch = (none, t) := by
  unfold streamDoc
  rw [if_neg hNamed, hBranch]

/-- A read of a known branch answers with its fold from scratch, and holds what it folded. -/
theorem streamDoc_known (hCoherent : t.Coherent) (hNamed : branch ≠ MAIN_BRANCH)
    (hBranch : (t.hub.branches room).branch branch = some b) :
    (t.streamDoc room branch).1 = t.hub.foldStream room branch ∧
      (t.streamDoc room branch).2.hub = t.hub ∧ (t.streamDoc room branch).2.Coherent := by
  have hFold := StoredHub.foldStream_eq hNamed hBranch
  have hReaches := @StoredHub.window_le_of_not_clipped σ t.hub room b.forkPoint
  unfold streamDoc
  rw [if_neg hNamed, hBranch]
  dsimp only
  generalize hLen : (t.hub.branchBases room branch).map
    (fun base => EncodedLen.encodedLen base.state) = baseLen
  have hOwned : baseLen.isNone = true ↔ t.hub.branchBases room branch = none := by
    rw [← hLen, Option.isNone_map, Option.isNone_iff_eq_none]
  generalize hShared : (if baseLen.isNone = true then some (t.hub.window room b.forkPoint)
    else none) = sharedBase
  have hShares : t.hub.branchBases room branch = none →
      sharedBase = some (t.hub.window room b.forkPoint) := by
    intro hBase
    rw [← hShared, if_pos (hOwned.mpr hBase)]
  have hClips : (sharedBase.any fun window => 0 < window.1 ∧ 0 < window.2) = true ↔
      t.hub.branchBases room branch = none ∧ t.hub.clipped room b.forkPoint := by
    unfold StoredHub.clipped
    rw [← hShared]
    by_cases hBase : t.hub.branchBases room branch = none
    · rw [if_pos (hOwned.mpr hBase)]
      simp [hBase]
    · rw [if_neg (hOwned.not.mpr hBase)]
      simp [hBase]
  by_cases hGone : t.hub.branchBases room branch = none ∧ t.hub.clipped room b.forkPoint
  · rw [if_pos (hClips.mpr hGone), hFold, if_pos hGone]
    exact ⟨rfl, rfl, hCoherent.setTree fun held hHeld => by cases hHeld⟩
  · rw [if_neg (hClips.not.mpr hGone), hFold, if_neg hGone]
    generalize hEnd : (t.hub.window room b.forkPoint).2 = baseEnd at hReaches
    have hWindow : t.hub.branchBases room branch = none →
        sharedBase = some (StoredHub.floor (t.hub.rooms room), baseEnd) := by
      intro hBase
      rw [hShares hBase, ← hEnd]
      rfl
    have hWhole : ∀ tree : StreamTree σ, folded (t.hub.stream room branch) baseEnd = some tree.doc →
        tree.tailLen = (t.hub.branchLogs room branch).ops.length → tree.sharedBase = sharedBase →
          (t.setTree room branch (some tree)).Coherent := by
      intro tree hDoc hTail hSame
      refine hCoherent.setTree fun held hHeld => ?_
      obtain rfl := Option.some.inj hHeld
      exact .whole tree hDoc hTail fun hBase =>
        ⟨hSame.trans (hWindow hBase), hReaches fun hClipped => hGone ⟨hBase, hClipped⟩⟩
    split
    · split
      next hNone =>
        rw [hNone]
        exact ⟨rfl, rfl, hCoherent.setTree fun held hHeld => by cases hHeld⟩
      next doc hSome =>
        rw [hSome]
        exact ⟨rfl, rfl, hWhole _ hSome rfl rfl⟩
    · next tree hHeld =>
      obtain ⟨hHeld, hExtends⟩ := Option.filter_eq_some_iff.mp hHeld
      have hHolds := hCoherent room branch tree hHeld
      simp only [extendsTo, Bool.and_eq_true, decide_eq_true_eq] at hExtends
      obtain ⟨⟨-, hSame⟩, hTail⟩ := hExtends
      have hForward := hHolds.forward fun hBase => hSame.trans (hWindow hBase)
      split
      · exact ⟨hForward.symm, rfl, hWhole _ hForward rfl hSame⟩
      · next hShort =>
        have hAll : tree.tailLen = (t.hub.branchLogs room branch).ops.length := by omega
        refine ⟨?_, rfl, hCoherent⟩
        rw [hForward, hAll]
        have hNone := List.drop_length (l := (t.hub.branchLogs room branch).ops)
        exact congrArg some (congrArg (StoredHub.foldRecords tree.doc) hNone.symm)

end TreeHub

/-! ### Bases at position zero -/

section Blank

variable [Folds σ]

/-- A branch whose fork point is zero owns no base but that of an empty replica: a subscriber
that has seen nothing is past such a base. -/
def BranchStream.BlankAtZero (s : BranchStream σ) : Prop :=
  ∀ b base, s.pointer = some b → b.forkPoint = 0 → s.base = some base →
    Document.decodeState base.state = some s.blank

namespace StoredHub

def BlankAtZero (h : StoredHub σ) : Prop := ∀ r n, n ≠ MAIN_BRANCH → (h.stream r n).BlankAtZero

/-- Whether a state is that of an empty replica. -/
def IsBlank (h : StoredHub σ) (state : DocState σ) : Prop :=
  Document.decodeState state = some (Document.new h.server h.content)

/-- A call that gives a branch fork point zero leaves it no base but a blank one. -/
def SeatsBlank (h : StoredHub σ) : HubCall σ → Prop
  | .forkBranch room new source position =>
    h.forkPosition room source position = 0 →
      ∀ base, h.branchBases room new = some base → h.IsBlank base.state
  | .renameBranch room source target =>
    ∀ b, (h.branches room).branch source = some b → b.forkPoint = 0 →
      ∀ base, h.branchBases room target = some base → h.IsBlank base.state
  | .forkBranchFromVersion room _ version | .restoreAsBranch room version _ =>
    ∀ v, (h.versions room)[version]? = some v → v.seq = 0 → h.IsBlank v.state
  | .publish room _ =>
    ∀ state, h.materializeBranch room (h.activeBranch room) = .state state →
      h.publishedSeq room = 0 → h.IsBlank state
  | _ => True

namespace BlankAtZero

variable {h h' : StoredHub σ} {faults : Faults} {room : RoomId} {name : Bytes}

theorem of_goesOn {seated : Option RoomId} (hBlank : h.BlankAtZero)
    (hGoesOn : h.GoesOn h' seated) : h'.BlankAtZero := by
  intro r n hNamed
  rw [hGoesOn.streams]
  exact hBlank r n hNamed

theorem of_restreams {s : BranchStream σ} (hBlank : h.BlankAtZero)
    (hSet : h.Restreams h' room name s) (hSeated : name ≠ MAIN_BRANCH → s.BlankAtZero) :
    h'.BlankAtZero :=
  hSet.all (P := fun n s => n ≠ MAIN_BRANCH → s.BlankAtZero) hBlank hSeated

/-- The step. -/
theorem perform (hBlank : h.BlankAtZero) (faults : Faults) {call : HubCall σ}
    (hSeats : h.SeatsBlank call) : (h.perform faults call).2.BlankAtZero := by
  cases h.perform_effect faults call with
  | rooms hGoesOn => exact hBlank.of_goesOn hGoesOn
  | appended hNamed hPointer hFresh hHead hSet =>
    refine hBlank.of_restreams hSet fun _ b' base hMoved hZero hBase => ?_
    obtain rfl := Option.some.inj hMoved
    exact hBlank _ _ hNamed _ base hPointer hZero hBase
  | forked hOk hFree hSet =>
    refine hBlank.of_restreams hSet fun _ b base hPointer hZero hBase => ?_
    obtain rfl := Option.some.inj hPointer
    exact hSeats hZero base hBase
  | renamed hOk _ hFree hSource hSet =>
    intro r n hNamed
    rw [hSet]
    split
    · intro b' base hPointer hZero hBase
      obtain rfl := Option.some.inj hPointer
      exact hSeats _ hSource hZero base hBase
    · split
      · exact fun b' base hPointer => by cases hPointer
      · exact hBlank r n hNamed
  | deleted hOk hSet => exact hBlank.of_restreams hSet fun _ b base hPointer => by cases hPointer
  | based hCall hBase hVersion hFree hSet =>
    refine hBlank.of_restreams hSet fun _ b base hPointer hZero hOwned => ?_
    obtain rfl := Option.some.inj hPointer
    obtain rfl := Option.some.inj hOwned
    obtain rfl | rfl := hCall
    · exact hSeats _ hVersion hZero
    · exact hSeats _ hVersion hZero
  | unbased hCall hBase hSet =>
    exact hBlank.of_restreams hSet fun _ b base _ _ hOwned => by cases hOwned
  | published hBase hState hFork hHead hSet =>
    refine hBlank.of_restreams hSet fun _ b' base hPointer hZero hOwned => ?_
    obtain rfl := Option.some.inj hPointer
    obtain rfl := Option.some.inj hOwned
    exact hSeats _ hState (hFork.symm.trans hZero)

end BlankAtZero

variable {h : StoredHub σ} {room : RoomId} {branch : Bytes} {b : Branch}

/-- What a subscriber folds from the start is the branch's fold from scratch, which past position
zero it is served as the bytes of. -/
theorem caughtUpDoc_eq (hBlank : h.BlankAtZero) (hNamed : branch ≠ MAIN_BRANCH)
    (hBranch : (h.branches room).branch branch = some b) :
    h.caughtUpDoc room branch =
      if (h.branchBases room branch).isSome ∧ 0 < b.forkPoint then
        (h.foldStream room branch).bind Document.reloaded
      else h.foldStream room branch := by
  rw [foldStream_eq hNamed hBranch]
  unfold caughtUpDoc folded stream
  cases hBase : h.branchBases room branch with
  | none =>
    rw [catchUpBranch_shared hNamed hBranch hBase]
    by_cases hClipped : h.clipped room b.forkPoint
    · simp [hClipped]
    · simp [hClipped]
  | some base =>
    have hOwned : h.ownsBase room branch = true := by rw [ownsBase, hBase]; rfl
    unfold catchUpBranch
    rw [if_neg hNamed, hBranch]
    simp only [hOwned, if_true, ownedBaseDoc_eq hBase, Nat.zero_sub, List.drop_zero, reduceCtorEq,
      false_and, if_false, Option.isSome_some, true_and]
    obtain hZero | hPast := Nat.eq_zero_or_pos b.forkPoint
    · have hState : Document.decodeState base.state = some (Document.new h.server h.content) :=
        hBlank room branch hNamed b base hBranch hZero hBase
      rw [hZero, if_neg (Nat.lt_irrefl 0), if_neg (Nat.lt_irrefl 0), based, hState]
      rfl
    · rw [if_pos hPast, if_pos hPast]
      cases based base (h.branchLogs room branch).ops <;> rfl

theorem catchUpBranch_unavailable (hBlank : h.BlankAtZero) (hNamed : branch ≠ MAIN_BRANCH)
    (hBranch : (h.branches room).branch branch = some b) :
    h.catchUpBranch room branch 0 = .unavailable ↔ h.foldStream room branch = none := by
  rw [foldStream_eq hNamed hBranch]
  unfold folded stream
  cases hBase : h.branchBases room branch with
  | none =>
    rw [catchUpBranch_shared hNamed hBranch hBase]
    by_cases hClipped : h.clipped room b.forkPoint
    · simp [hClipped]
    · simp [hClipped]
  | some base =>
    have hOwned : h.ownsBase room branch = true := by rw [ownsBase, hBase]; rfl
    unfold catchUpBranch
    rw [if_neg hNamed, hBranch]
    simp only [hOwned, if_true, ownedBaseDoc_eq hBase, Nat.zero_sub, List.drop_zero, reduceCtorEq,
      false_and, if_false]
    obtain hZero | hPast := Nat.eq_zero_or_pos b.forkPoint
    · have hState : Document.decodeState base.state = some (Document.new h.server h.content) :=
        hBlank room branch hNamed b base hBranch hZero hBase
      rw [hZero, if_neg (Nat.lt_irrefl 0), based, hState]
      simp
    · rw [if_pos hPast]
      cases based base (h.branchLogs room branch).ops with
      | none => simp
      | some doc => simp

end StoredHub

end Blank

namespace TreeHub

variable [Folds σ] [EncodedLen σ] {t : TreeHub σ}

/-- Each call of a run, in the hub it meets, leaves no base but a blank one at position zero. -/
def MeetsBlank (t : TreeHub σ) : List (TreeCall σ) → Prop
  | [] => True
  | .call call faults :: calls =>
    t.hub.SeatsBlank call ∧ (t.step (.call call faults)).MeetsBlank calls
  | .read room branch :: calls => (t.step (.read room branch)).MeetsBlank calls

/-- The step: trees stay coherent, and reads leave the hub as it is. -/
theorem Coherent.step (hCoherent : t.Coherent) (call : TreeCall σ) : (t.step call).Coherent := by
  cases call with
  | call call faults =>
    intro r n tree hHeld
    change (if t.hub.retires faults call r n = true then none else t.streamTrees r n) = some tree
      at hHeld
    split at hHeld
    · cases hHeld
    · next hKept =>
      exact (hCoherent r n tree hHeld).grows
        (t.hub.perform_grows faults call r n (by simpa using hKept))
  | read room branch =>
    change (t.streamDoc room branch).2.Coherent
    by_cases hMain : branch = MAIN_BRANCH
    · rw [streamDoc, if_pos hMain]
      exact hCoherent
    · cases hBranch : (t.hub.branches room).branch branch with
      | none =>
        rw [streamDoc_unknown hMain hBranch]
        exact hCoherent
      | some b => exact (streamDoc_known hCoherent hMain hBranch).2.2

theorem hub_read (hCoherent : t.Coherent) (room : RoomId) (branch : Bytes) :
    (t.step (.read room branch)).hub = t.hub := by
  change (t.streamDoc room branch).2.hub = t.hub
  by_cases hMain : branch = MAIN_BRANCH
  · rw [streamDoc, if_pos hMain]
  · cases hBranch : (t.hub.branches room).branch branch with
    | none => rw [streamDoc_unknown hMain hBranch]
    | some b => exact (streamDoc_known hCoherent hMain hBranch).2.1

theorem run_coherent (calls : List (TreeCall σ)) (hCoherent : t.Coherent)
    (hBlank : t.hub.BlankAtZero) (hMeets : t.MeetsBlank calls) :
    (t.run calls).Coherent ∧ (t.run calls).hub.BlankAtZero := by
  induction calls generalizing t with
  | nil => exact ⟨hCoherent, hBlank⟩
  | cons call calls ih =>
    cases call with
    | call call faults =>
      exact ih (hCoherent.step _) (hBlank.perform faults hMeets.1) hMeets.2
    | read room branch =>
      refine ih (hCoherent.step _) ?_ hMeets
      rw [hub_read hCoherent]
      exact hBlank

section Contents

variable [IdBytes] [EncodedLen Content] {t : TreeHub Content}

/-- A read answers with what a subscriber to the branch folds from the start, and with nothing
just where the branch is unknown or cannot be served. -/
def Answers (t : TreeHub Content) (room : RoomId) (branch : Bytes) : Prop :=
  (∀ doc, (t.streamDoc room branch).1 = some doc →
    ∃ caughtUp ∈ t.hub.caughtUpDoc room branch, caughtUp.toDocState.bytes = doc.toDocState.bytes) ∧
    ((t.streamDoc room branch).1 = none ↔
      (t.hub.branches room).branch branch = none ∨
        t.hub.catchUpBranch room branch 0 = .unavailable)

/-- The replica a branch is served from its start as the bytes of: past position zero, the base
it owns with its tail folded in. -/
def whole (s : BranchStream Content) : Option (Document Content) := do
  let b ← s.pointer
  let base ← s.base
  if 0 < b.forkPoint then StoredHub.based base s.tail.ops else none

/-- That replica is read back from its bytes as one that says the same. -/
def ReadsBack (s : BranchStream Content) : Prop :=
  ∀ doc ∈ whole s, ∃ caughtUp ∈ doc.reloaded, caughtUp.toDocState.bytes = doc.toDocState.bytes

deriving instance DecidableEq for DocState

instance (s : BranchStream Content) : Decidable (ReadsBack s) :=
  inferInstanceAs (Decidable (∀ doc ∈ whole s, _))

/-- A stream past position zero over a base that decodes to `d`, which has only folded ops in. -/
def StandsOn (s : BranchStream Content) (d : Document Content) : Prop :=
  ∃ b ∈ s.pointer, 0 < b.forkPoint ∧ ∃ base ∈ s.base,
    Document.decodeState base.state = some d ∧ d.Folded

omit [EncodedLen Content] in
/-- Over such a base this is the content's to say. -/
theorem StandsOn.readsBack_iff {s : BranchStream Content} {d : Document Content} (h : StandsOn s d) :
    ReadsBack s ↔ (StoredHub.foldRecords d s.tail.ops).toDocState.ReadsBack := by
  obtain ⟨b, hPointer, hPast, base, hBase, hDecode, hFolded⟩ := h
  rw [Option.mem_def] at hPointer hBase
  have hTail : (StoredHub.foldRecords d s.tail.ops).Folded := by
    have hOps := hFolded.foldl_apply (s.tail.ops.map StoredOp.op)
    rwa [List.foldl_map] at hOps
  have hWhole : whole s = some (StoredHub.foldRecords d s.tail.ops) := by
    unfold whole
    rw [hPointer, hBase]
    exact (if_pos hPast).trans (by rw [StoredHub.based, hDecode, Option.map_some])
  rw [← hTail.readsBack_iff]
  constructor
  · intro hBack
    obtain ⟨caughtUp, hReloaded, hBytes⟩ := hBack _ hWhole
    exact ⟨caughtUp.toDocState, congrArg (Option.map Document.toDocState) hReloaded, hBytes⟩
  · rintro ⟨state, hReread, hBytes⟩ doc hDoc
    obtain rfl := Option.some.inj (hWhole.symm.trans hDoc)
    obtain ⟨caughtUp, hReloaded, rfl⟩ := Option.map_eq_some_iff.mp hReread
    exact ⟨caughtUp, hReloaded, hBytes⟩

theorem Coherent.answers (hCoherent : t.Coherent) (hBlank : t.hub.BlankAtZero) {room : RoomId}
    {branch : Bytes} (hNamed : branch ≠ MAIN_BRANCH) :
    t.Answers room branch ↔ ReadsBack (t.hub.stream room branch) := by
  unfold Answers
  have hWhole : whole (t.hub.stream room branch) =
      ((t.hub.branches room).branch branch).bind fun b => (t.hub.branchBases room branch).bind fun base =>
        if 0 < b.forkPoint then StoredHub.based base (t.hub.branchLogs room branch).ops else none := rfl
  cases hBranch : (t.hub.branches room).branch branch with
  | none =>
    rw [hBranch, Option.bind_none] at hWhole
    refine iff_of_true ?_ fun doc hDoc => absurd (hWhole.symm.trans hDoc) (by simp)
    simp [streamDoc_unknown hNamed hBranch]
  | some b =>
    obtain ⟨hDoc, -, -⟩ := streamDoc_known hCoherent hNamed hBranch
    have hNone := StoredHub.catchUpBranch_unavailable hBlank hNamed hBranch
    have hFold := StoredHub.foldStream_eq hNamed hBranch
    rw [hBranch, Option.bind_some] at hWhole
    rw [hDoc, StoredHub.caughtUpDoc_eq hBlank hNamed hBranch, hNone]
    simp only [reduceCtorEq, false_or, and_true]
    by_cases hOwned : (t.hub.branchBases room branch).isSome ∧ 0 < b.forkPoint
    · -- The snapshot served is the bytes of the fold from scratch.
      obtain ⟨base, hBase⟩ := Option.isSome_iff_exists.mp hOwned.1
      have hSame : whole (t.hub.stream room branch) = t.hub.foldStream room branch := by
        rw [hWhole, hBase, Option.bind_some, if_pos hOwned.2, hFold, if_neg (by simp [hBase])]
        simp only [StoredHub.folded, StoredHub.stream, hBase]
      rw [if_pos hOwned]
      unfold ReadsBack
      rw [hSame]
      refine forall₂_congr fun doc hSome => ?_
      rw [hSome, Option.bind_some]
    · rw [if_neg hOwned]
      refine iff_of_true (fun doc hSome => ⟨doc, hSome, rfl⟩) fun doc hDoc => ?_
      rw [hWhole] at hDoc
      obtain ⟨base, hBase, hDoc⟩ := Option.bind_eq_some_iff.mp hDoc
      split at hDoc
      next hPast => exact absurd ⟨by rw [hBase]; rfl, hPast⟩ hOwned
      next => cases hDoc

/-- In a run whose calls leave no base but a blank one at position zero, every read of a named
branch answers with what a subscriber folds from the start, just where what the branch is served
as is read back as one that says the same: over a base that has only folded ops in, where the
content is read back as one that is written the same and lets go of no waiting op. -/
theorem held_trees_answer_catch_up (h : StoredHub Content) (hStart : h.BlankAtZero)
    (calls : List (TreeCall Content)) (hMeets : (new h).MeetsBlank calls) (room : RoomId)
    (branch : Bytes) (hNamed : branch ≠ MAIN_BRANCH) :
    let s := ((new h).run calls).hub.stream room branch
    (((new h).run calls).Answers room branch ↔ ReadsBack s) ∧
      ∀ d, StandsOn s d →
        (ReadsBack s ↔ (StoredHub.foldRecords d s.tail.ops).toDocState.ReadsBack) := by
  have hNew : (new h).Coherent := fun r n tree hHeld => by cases hHeld
  obtain ⟨hCoherent, hBlank⟩ := run_coherent calls hNew hStart hMeets
  exact ⟨hCoherent.answers hBlank hNamed, fun d hStandsOn => hStandsOn.readsBack_iff⟩

end Contents

section Witness

open StoredHub (slotWrite slotRewrite)

local instance treeIdBytes : IdBytes := IdBytes.spelled

local instance seenLen : EncodedLen Content := ⟨fun state => state.seen.card⟩

omit [EncodedLen σ] in
theorem blankAtZero_new (server : ClientId) (content : σ) (threshold : Nat) :
    (StoredHub.new server content threshold).BlankAtZero :=
  fun r n _ b base _ _ hBase => by cases hBase

/-- Calls on one room, none of whose store calls fails. -/
def landing (calls : List (HubCall Content)) : List (TreeCall Content) :=
  calls.map fun call => .call call fun _ => false

/-- A snapshot fork is read, written to and read again. -/
def grownFork : List (TreeCall Content) :=
  landing [.ingest [114] [slotWrite] none, .createVersion [114] [118],
      .forkBranchFromVersion [114] [97] [118]] ++
    .read [114] [97] :: landing [.ingestBranch [114] [97] [slotRewrite] none] ++
      [.read [114] [97]]

def grownStream : BranchStream Content :=
  ((new (StoredHub.new ⟨9⟩ Content.new 0)).run grownFork).hub.stream [114] [97]

/-- The replica of a room that took one write in. -/
def writtenRoom : Document Content := (Document.new ⟨9⟩ Content.new).apply slotWrite

theorem standsOn_writtenRoom : StandsOn grownStream writtenRoom := by
  have hBase : grownStream.base.map Base.state = some writtenRoom.toDocState := by decide +kernel
  have hPointer : grownStream.pointer.map Branch.forkPoint = some 1 := by decide +kernel
  obtain ⟨base, hSome, hState⟩ := Option.map_eq_some_iff.mp hBase
  obtain ⟨b, hNamed, hPoint⟩ := Option.map_eq_some_iff.mp hPointer
  have hDecode : Document.decodeState writtenRoom.toDocState = some writtenRoom := by rfl
  exact ⟨b, hNamed, by omega, base, hSome, hState ▸ hDecode,
    (Document.folded_new ⟨9⟩).foldl_apply [slotWrite]⟩

theorem grown_fork_answers_catch_up :
    ((new (StoredHub.new ⟨9⟩ Content.new 0)).run grownFork).Answers [114] [97] ∧
      (StoredHub.foldRecords writtenRoom grownStream.tail.ops).toDocState.ReadsBack := by
  have hMeets : (new (StoredHub.new ⟨9⟩ Content.new 0)).MeetsBlank grownFork := by
    refine ⟨trivial, trivial, fun v hVersion hZero => ?_, trivial, trivial⟩
    have hSeq : (some v).map Version.seq = some 1 := by
      rw [← hVersion]
      decide +kernel
    rw [Option.map_some, hZero] at hSeq
    cases hSeq
  obtain ⟨hAnswers, hContent⟩ := held_trees_answer_catch_up _ (blankAtZero_new ⟨9⟩ Content.new 0)
    grownFork hMeets [114] [97] (by decide)
  have hBack : ReadsBack grownStream := by decide +kernel
  exact ⟨hAnswers.mpr hBack, (hContent writtenRoom standsOn_writtenRoom).mp hBack⟩

/-- A snapshot fork is renamed, and its old name forked again at the start of the log. -/
def staleBase : List (TreeCall Content) :=
  landing [.ingest [114] [slotWrite] none, .createVersion [114] [118],
    .forkBranchFromVersion [114] [97] [118], .renameBranch [114] [97] [99],
    .forkBranch [114] [97] MAIN_BRANCH 0]

/-- Moves that close a cycle are written to a snapshot fork. -/
def crossedFork : List (TreeCall Content) :=
  landing [.ingest [114] [slotWrite] none, .createVersion [114] [118],
    .forkBranchFromVersion [114] [97] [118], .ingestBranch [114] [97] Document.crossedOps none]

/-- A stale fork's tree is the base left under its name, and a subscriber is served nothing. And a
crossed one's is served as a snapshot that a subscriber refuses. -/
theorem stale_base_not_served :
    (¬∀ (calls : List (TreeCall Content)) (room : RoomId) (branch : Bytes), branch ≠ MAIN_BRANCH →
      ((new (StoredHub.new ⟨9⟩ Content.new 0)).run calls).Answers room branch) ∧
      let t := (new (StoredHub.new ⟨9⟩ Content.new 0)).run crossedFork
      (t.streamDoc [114] [97]).1.isSome = true ∧ (t.hub.caughtUpDoc [114] [97]).isNone = true := by
  refine ⟨fun hAll => ?_, by decide +kernel, by decide +kernel⟩
  obtain ⟨hDoc, -⟩ := hAll staleBase [114] [97] (by decide)
  generalize hRun : (new (StoredHub.new ⟨9⟩ Content.new 0)).run staleBase = t at hDoc
  have hRead : (t.streamDoc [114] [97]).1.map (fun d => d.seen) = some {slotWrite.id} := by
    rw [← hRun]
    decide +kernel
  have hServed : (t.hub.caughtUpDoc [114] [97]).map (fun d => d.seen) = some ∅ := by
    rw [← hRun]
    decide +kernel
  obtain ⟨doc, hSome, hSeen⟩ := Option.map_eq_some_iff.mp hRead
  obtain ⟨caughtUp, hCaught, hBytes⟩ := hDoc doc hSome
  rw [hCaught, Option.map_some] at hServed
  have hSame := congrArg DocState.seen hBytes
  change caughtUp.seen = doc.seen at hSame
  rw [hSame, hSeen] at hServed
  exact absurd hServed (by decide)

end Witness

end TreeHub

end Server

end CrdtSync
