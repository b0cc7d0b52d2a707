import CrdtSync.Server.Publishing

/-!
# Streams

A named branch's stream is read from its pointer, its owned base, its tail and the default
branch's log. Here is what each call does to the first three, name by name, and to the log.
-/

namespace CrdtSync

namespace Server

open Std (ExtTreeMap)

variable {σ : Type}

namespace BranchRegistry

variable {r registry : BranchRegistry} {name : Bytes} {position head : Nat}

theorem branch_insert (r : BranchRegistry) (b : Branch) (name : Bytes) :
    (r.insert b).branch name = if name = b.name then some b else r.branch name := by
  unfold branch insert
  rw [ExtTreeMap.getElem?_insert]
  refine if_congr ?_ rfl rfl
  rw [Std.LawfulEqCmp.compare_eq_iff_eq, eq_comm]

theorem branch_point (r : BranchRegistry) (key : Bytes) (b : Branch) (name : Bytes) :
    (⟨r.branches.insert key b⟩ : BranchRegistry).branch name =
      if name = key then some b else r.branch name := by
  unfold branch
  rw [ExtTreeMap.getElem?_insert]
  refine if_congr ?_ rfl rfl
  rw [Std.LawfulEqCmp.compare_eq_iff_eq, eq_comm]

theorem branch_erase (r : BranchRegistry) (key name : Bytes) :
    (⟨r.branches.erase key⟩ : BranchRegistry).branch name =
      if name = key then none else r.branch name := by
  unfold branch
  rw [ExtTreeMap.getElem?_erase]
  refine if_congr ?_ rfl rfl
  rw [Std.LawfulEqCmp.compare_eq_iff_eq, eq_comm]

theorem fork_eq_some {new source : Bytes} (h : r.fork new source position = some registry) :
    r.branch new = none ∧ ∀ n, registry.branch n =
      if n = new then some ⟨new, position, position, false⟩ else r.branch n := by
  unfold fork at h
  split at h
  · cases h
  · next hFree =>
    obtain rfl := Option.some.inj h
    refine ⟨?_, branch_insert r _⟩
    simpa using (not_or.mp hFree).1

theorem rename_eq_some {source target : Bytes} (h : r.rename source target = some registry) :
    source ≠ MAIN_BRANCH ∧ r.branch target = none ∧ ∃ b, r.branch source = some b ∧ ∀ n, registry.branch n =
      if n = target then some { b with name := target }
      else if n = source then none else r.branch n := by
  unfold rename at h
  split at h
  · cases h
  · next hFree =>
    cases hBranch : r.branch source with
    | none => simp [hBranch] at h
    | some b =>
      rw [hBranch] at h
      obtain rfl := Option.some.inj h
      obtain ⟨hSource, hTarget⟩ := not_or.mp hFree
      refine ⟨hSource, by simpa using hTarget, b, rfl, fun n => ?_⟩
      rw [branch_insert, branch_erase]

theorem delete_eq_some (h : r.delete name = some registry) :
    ∀ n, registry.branch n = if n = name then none else r.branch n := by
  unfold delete at h
  split at h
  · cases h
  · obtain rfl := Option.some.inj h
    exact branch_erase r name

theorem pointPublished_eq_some (h : r.pointPublished name position = some registry) :
    ∃ b : Branch, b.forkPoint = position ∧ b.head = position ∧
      ∀ n, registry.branch n = if n = name then some b else r.branch n := by
  unfold pointPublished at h
  split at h
  · split at h
    · cases h
    · obtain rfl := Option.some.inj h
      exact ⟨_, rfl, rfl, branch_point r name _⟩
  · obtain rfl := Option.some.inj h
    exact ⟨_, rfl, rfl, branch_insert r _⟩

theorem setHead_eq_some {b : Branch} (hBranch : r.branch name = some b)
    (h : r.setHead name head = some registry) :
    ∀ n, registry.branch n = if n = name then some { b with head } else r.branch n := by
  unfold setHead at h
  rw [hBranch] at h
  dsimp only at h
  split at h
  · cases h
  · obtain rfl := Option.some.inj h
    exact branch_point r name _

end BranchRegistry

/-- What a named branch's stream is read from: the empty replica a fold starts with, the
default branch, and the branch's own pointer, base and tail. -/
structure BranchStream (σ : Type) where
  blank : Document σ
  main : Option (LoggedRoom σ)
  pointer : Option Branch
  base : Option (Base σ)
  tail : BranchLog

/-- What deleting leaves of a stream. -/
def BranchStream.gone (s : BranchStream σ) : BranchStream σ :=
  { s with pointer := none, base := none, tail := .empty }

namespace BranchLog

theorem prefix_foldl_push (recs : List StoredOp) (log : BranchLog) :
    log.ops <+: (recs.foldl push log).ops := by
  rw [ops_foldl_push]
  exact List.prefix_append ..

end BranchLog

theorem eq_ok_of_toOption {α : Type} {result : Except IoError α} {a : α}
    (h : result.toOption = some a) : result = .ok a := by
  cases result with
  | error e => cases h
  | ok b => exact congrArg Except.ok (Option.some.inj h)

namespace StoredHub

variable {h h' : StoredHub σ} {faults : Faults} {room : RoomId} {name : Bytes}

def stream (h : StoredHub σ) (room : RoomId) (name : Bytes) : BranchStream σ :=
  ⟨Document.new h.server h.content, h.rooms room, (h.branches room).branch name,
    h.branchBases room name, h.branchLogs room name⟩

/-- One stream is set, and every other is kept. -/
def Restreams (h h' : StoredHub σ) (room : RoomId) (name : Bytes) (s : BranchStream σ) : Prop :=
  ∀ r n, h'.stream r n = if r = room ∧ n = name then s else h.stream r n

section Setters

theorem stream_attempt (h : StoredHub σ) (faults : Faults) (c : StoreCall) (room : RoomId)
    (f : RoomLog σ → RoomLog σ) : (h.attempt faults c room f).stream = h.stream := by
  obtain ⟨files, hEq⟩ := h.attempt_eq faults c room f
  rw [hEq]
  rfl

theorem stream_of_call {c : StoreCall} {f : RoomLog σ → RoomLog σ}
    (hCall : h.call faults c room f = .ok h') : h'.stream = h.stream := by
  obtain ⟨-, hEq⟩ | ⟨-, hEq⟩ := h.call_cases faults c room f
  · rw [hEq] at hCall
    cases hCall
  · rw [hEq] at hCall
    cases hCall
    rfl

theorem stream_setBase (h : StoredHub σ) (room : RoomId) (name : Bytes) (base : Option (Base σ)) :
    h.Restreams (h.setBase room name base) room name { h.stream room name with base } := by
  intro r n
  unfold stream setBase
  by_cases hRoom : r = room
  · subst hRoom
    by_cases hName : n = name
    · subst hName
      simp
    · simp [hName]
  · simp [hRoom]

theorem stream_setTail (h : StoredHub σ) (room : RoomId) (name : Bytes) (tail : BranchLog) :
    h.Restreams (h.setTail room name tail) room name { h.stream room name with tail } := by
  intro r n
  unfold stream setTail
  by_cases hRoom : r = room
  · subst hRoom
    by_cases hName : n = name
    · subst hName
      simp
    · simp [hName]
  · simp [hRoom]

theorem Restreams.self {s : BranchStream σ} (hSet : h.Restreams h' room name s) :
    h'.stream room name = s := by
  rw [hSet, if_pos ⟨rfl, rfl⟩]

theorem Restreams.of_ne {s : BranchStream σ} (hSet : h.Restreams h' room name s) {r : RoomId} {n : Bytes}
    (hOther : ¬(r = room ∧ n = name)) : h'.stream r n = h.stream r n := by
  rw [hSet, if_neg hOther]

theorem Restreams.trans {h'' : StoredHub σ} {s s' : BranchStream σ} (hSet : h.Restreams h' room name s)
    (hSet' : h'.Restreams h'' room name s') : h.Restreams h'' room name s' := by
  intro r n
  by_cases hHere : r = room ∧ n = name
  · rw [hSet', if_pos hHere, if_pos hHere]
  · rw [hSet'.of_ne hHere, hSet.of_ne hHere, if_neg hHere]

theorem Restreams.same (hSet : h.Restreams h' room name (h.stream room name)) :
    h'.stream = h.stream := by
  funext r n
  rw [hSet]
  split
  · next hHere => rw [hHere.1, hHere.2]
  · rfl

theorem Restreams.all {P : Bytes → BranchStream σ → Prop} {s : BranchStream σ}
    (hSet : h.Restreams h' room name s) (hAll : ∀ r n, P n (h.stream r n)) (hSeated : P name s)
    (r : RoomId) (n : Bytes) : P n (h'.stream r n) := by
  by_cases hHere : r = room ∧ n = name
  · rw [hSet, if_pos hHere, hHere.2]
    exact hSeated
  · rw [hSet.of_ne hHere]
    exact hAll r n

theorem Restreams.congr {h'' : StoredHub σ} {s : BranchStream σ} (hSet : h.Restreams h' room name s)
    (hSame : h''.stream = h'.stream) : h.Restreams h'' room name s := by
  intro r n
  rw [hSame]
  exact hSet r n

theorem Restreams.of_eq {h'' : StoredHub σ} {s : BranchStream σ} (hSame : h'.stream = h.stream)
    (hSet : h'.Restreams h'' room name s) : h.Restreams h'' room name s := by
  intro r n
  rw [← hSame]
  exact hSet r n

end Setters

section Cases

theorem mutateBranches_stream (h : StoredHub σ) (faults : Faults) (room : RoomId)
    (change : BranchRegistry → Option BranchRegistry) :
    ((h.mutateBranches faults room change).1 ≠ .ok true ∧
        (h.mutateBranches faults room change).2 = h) ∨
      (h.mutateBranches faults room change).1 = .ok true ∧
        ∃ registry, change (h.branches room) = some registry ∧ ∀ r n,
          (h.mutateBranches faults room change).2.stream r n =
            if r = room then { h.stream r n with pointer := registry.branch n } else h.stream r n := by
  obtain ⟨-, hEq⟩ | ⟨registry, hChange, ⟨-, hEq⟩ | ⟨hFault, hEq⟩⟩ :=
    h.mutateBranches_cases faults room change
  · rw [hEq]
    exact .inl ⟨by simp, rfl⟩
  · rw [hEq]
    exact .inl ⟨by simp, rfl⟩
  · rw [hEq]
    refine .inr ⟨rfl, registry, hChange, fun r n => ?_⟩
    unfold stream setBranches write
    by_cases hRoom : r = room
    · subst hRoom
      simp
    · simp [hRoom]

theorem mutateBranches_restreams {change : BranchRegistry → Option BranchRegistry}
    {pointer : Option Branch}
    (hMoves : ∀ registry, change (h.branches room) = some registry → ∀ n,
      registry.branch n = if n = name then pointer else (h.branches room).branch n) :
    ((h.mutateBranches faults room change).1 ≠ .ok true ∧
        (h.mutateBranches faults room change).2 = h) ∨
      (h.mutateBranches faults room change).1 = .ok true ∧
        (∃ registry, change (h.branches room) = some registry) ∧
          h.Restreams (h.mutateBranches faults room change).2 room name
            { h.stream room name with pointer } := by
  obtain hRefused | ⟨hOk, registry, hChange, hStreams⟩ := h.mutateBranches_stream faults room change
  · exact .inl hRefused
  · refine .inr ⟨hOk, ⟨registry, hChange⟩, fun r n => ?_⟩
    rw [hStreams, hMoves registry hChange]
    by_cases hRoom : r = room
    · subst hRoom
      by_cases hName : n = name
      · subst hName
        simp
      · simp [hName, stream]
    · simp [hRoom]

/-- The fork point is at most the source's head. -/
def forkPosition (h : StoredHub σ) (room : RoomId) (source : Bytes) (position : Nat) : Nat :=
  (h.branch room source).elim position fun b => min position b.head

theorem forkBranch_cases (h : StoredHub σ) (faults : Faults) (room : RoomId) (new source : Bytes)
    (position : Nat) :
    let p := h.forkPosition room source position
    ((h.forkBranch faults room new source position).1 ≠ .ok true ∧
        (h.forkBranch faults room new source position).2 = h) ∨
      (h.forkBranch faults room new source position).1 = .ok true ∧
        (h.stream room new).pointer = none ∧
          h.Restreams (h.forkBranch faults room new source position).2 room new
            { h.stream room new with pointer := some ⟨new, p, p, false⟩ } := by
  intro p
  have hMoves : ∀ registry, (h.branches room).fork new source p = some registry → ∀ n,
      registry.branch n = if n = new then some ⟨new, p, p, false⟩ else (h.branches room).branch n :=
    fun registry hFork => (BranchRegistry.fork_eq_some hFork).2
  obtain hRefused | ⟨hOk, ⟨registry, hFork⟩, hSet⟩ :=
    @mutateBranches_restreams σ h faults room new (·.fork new source p) _ hMoves
  · exact .inl hRefused
  · exact .inr ⟨hOk, (BranchRegistry.fork_eq_some hFork).1, hSet⟩

theorem renameBranch_cases (h : StoredHub σ) (faults : Faults) (room : RoomId)
    (source target : Bytes) :
    ((h.renameBranch faults room source target).1 ≠ .ok true ∧
        (h.renameBranch faults room source target).2 = h) ∨
      (h.renameBranch faults room source target).1 = .ok true ∧
        source ≠ MAIN_BRANCH ∧ (h.stream room target).pointer = none ∧
          ∃ b, (h.stream room source).pointer = some b ∧ ∀ r n,
            (h.renameBranch faults room source target).2.stream r n =
              if r = room ∧ n = target then
                { h.stream room target with pointer := some { b with name := target } }
              else if r = room ∧ n = source then { h.stream room source with pointer := none }
              else h.stream r n := by
  obtain hRefused | ⟨hOk, registry, hRename, hStreams⟩ :=
    h.mutateBranches_stream faults room (·.rename source target)
  · exact .inl hRefused
  · obtain ⟨hNamed, hFree, b, hSource, hMoves⟩ := BranchRegistry.rename_eq_some hRename
    refine .inr ⟨hOk, hNamed, hFree, b, hSource, fun r n => ?_⟩
    unfold renameBranch
    rw [hStreams, hMoves]
    by_cases hRoom : r = room
    · subst hRoom
      by_cases hTarget : n = target
      · subst hTarget
        simp
      · by_cases hName : n = source
        · subst hName
          simp [hTarget]
        · simp [hTarget, hName, stream]
    · simp [hRoom]

theorem stream_setActiveBranch (h : StoredHub σ) (faults : Faults) (room : RoomId)
    (branch : Bytes) : (h.setActiveBranch faults room branch).2.stream = h.stream := by
  unfold setActiveBranch
  split
  · rfl
  · split
    · rfl
    · next hCall =>
      have hSame := stream_of_call hCall
      exact hSame

theorem deleteBranch_cases (h : StoredHub σ) (faults : Faults) (room : RoomId) (name : Bytes) :
    ((h.mutateBranches faults room (·.delete name)).1 ≠ .ok true ∧
        (h.deleteBranch faults room name).2.stream = h.stream) ∨
      (h.mutateBranches faults room (·.delete name)).1 = .ok true ∧
        h.Restreams (h.deleteBranch faults room name).2 room name (h.stream room name).gone := by
  obtain ⟨hRefused, hSame⟩ | ⟨hOk, -, hSet⟩ :=
    @mutateBranches_restreams σ h faults room name (·.delete name) none
      fun registry hDelete => BranchRegistry.delete_eq_some hDelete
  · refine .inl ⟨hRefused, ?_⟩
    unfold deleteBranch
    split
    · next hEq =>
      rw [hEq] at hSame
      exact congrArg stream hSame
    · next hEq =>
      rw [hEq] at hSame
      exact congrArg stream hSame
    · next hEq =>
      rw [hEq] at hRefused
      exact absurd rfl hRefused
  · refine .inr ⟨hOk, ?_⟩
    unfold deleteBranch
    split
    · next hEq =>
      rw [hEq] at hOk
      cases hOk
    · next hEq =>
      rw [hEq] at hOk
      cases hOk
    · next h₁ hEq =>
      rw [hEq] at hSet
      have hGone : h.Restreams ((h₁.setTail room name .empty).setBase room name none) room name
          (h.stream room name).gone := by
        have hTail := hSet.trans (h₁.stream_setTail room name .empty)
        have hBase := hTail.trans
          ((h₁.setTail room name .empty).stream_setBase room name none)
        rw [hTail.self, hSet.self] at hBase
        exact hBase
      dsimp only
      split
      · exact hGone
      · next hLog =>
        have hLog := stream_of_call hLog
        split
        · exact hGone.congr hLog
        · next h₃ hBase =>
          have hBase := (stream_of_call hBase).trans hLog
          split
          · have hActive := h₃.stream_setActiveBranch faults room MAIN_BRANCH
            split
            · next hEq =>
              rw [hEq] at hActive
              exact hGone.congr (hActive.trans hBase)
            · next hEq =>
              rw [hEq] at hActive
              exact hGone.congr (hActive.trans hBase)
          · exact hGone.congr hBase

/-- The version whose state a fork from it writes out as a base. -/
def versionBase (h : StoredHub σ) (faults : Faults) (room : RoomId) (new version : Bytes) :
    Option (Version σ) :=
  match (h.versions room)[version]? with
  | none => none
  | some v => if (h.branch room new).isSome ∨ faults .writeBranchBase = true then none else some v

theorem forkBranchFromVersion_streams (h : StoredHub σ) (faults : Faults) (room : RoomId)
    (new version : Bytes) :
    (h.versionBase faults room new version = none ∧
        (h.forkBranchFromVersion faults room new version).2.stream = h.stream) ∨
      ∃ v, h.versionBase faults room new version = some v ∧ (h.versions room)[version]? = some v ∧
        (h.Restreams (h.forkBranchFromVersion faults room new version).2 room new
            { h.stream room new with base := none } ∨
          (h.stream room new).pointer = none ∧
            h.Restreams (h.forkBranchFromVersion faults room new version).2 room new
              { h.stream room new with
                pointer := some ⟨new, v.seq, v.seq, false⟩
                base := some ⟨v.state, v.history⟩ }) := by
  unfold versionBase forkBranchFromVersion writeBranchBase
  cases (h.versions room)[version]? with
  | none => exact .inl ⟨rfl, rfl⟩
  | some v =>
    dsimp only
    by_cases hTaken : (h.branch room new).isSome = true
    · rw [if_pos (.inl hTaken), if_pos hTaken]
      exact .inl ⟨rfl, rfl⟩
    · rw [if_neg hTaken]
      obtain ⟨hFault, hCall⟩ | ⟨hFault, hCall⟩ := h.call_cases faults .writeBranchBase room
        fun l => { l with branchBases := l.branchBases.insert new ⟨v.state, v.history⟩ }
      · rw [if_pos (.inr hFault), hCall]
        exact .inl ⟨rfl, rfl⟩
      · rw [if_neg (not_or_intro hTaken (by simp [hFault]))]
        have hWritten := stream_of_call hCall
        rw [hCall]
        dsimp only
        generalize h.write room (fun l => { l with
          branchBases := l.branchBases.insert new ⟨v.state, v.history⟩ }) = h₁ at hWritten
        refine .inr ⟨v, rfl, rfl, ?_⟩
        have hBase := (h₁.stream_setBase room new (some ⟨v.state, v.history⟩)).of_eq hWritten
        rw [hWritten] at hBase
        obtain ⟨hRefused, hSame⟩ | ⟨hOk, ⟨registry, hFork⟩, hSet⟩ :=
          @mutateBranches_restreams σ (h₁.setBase room new (some ⟨v.state, v.history⟩)) faults room
            new (·.fork new MAIN_BRANCH v.seq) _
            fun registry hFork => (BranchRegistry.fork_eq_some hFork).2
        · left
          split
          · next hEq =>
            rw [hEq] at hRefused
            exact absurd rfl hRefused
          · next h₂ _ hEq =>
            rw [hEq] at hSame
            dsimp only at hSame
            subst hSame
            have hBack := hBase.trans (stream_setBase _ room new none)
            rw [hBase.self] at hBack
            exact hBack.congr (stream_attempt ..)
        · right
          have hNone := (BranchRegistry.fork_eq_some hFork).1
          have hPointer : (h.stream room new).pointer = none := by
            rw [← hWritten]
            exact hNone
          have hForked := hBase.trans hSet
          rw [hBase.self] at hForked
          generalize (h₁.setBase room new (some ⟨v.state, v.history⟩)).mutateBranches faults room
            (·.fork new MAIN_BRANCH v.seq) = o at hOk hForked ⊢
          obtain ⟨result, h₂⟩ := o
          obtain rfl : result = .ok true := hOk
          exact ⟨hPointer, hForked⟩

theorem repointPublished_streams (h : StoredHub σ) (faults : Faults) (room : RoomId)
    (published : Bytes) (seq : Nat) (base : Base σ) :
    (h.repointPublished faults room published seq base).2.stream = h.stream ∨
      faults .writeBranchBase = false ∧ ∃ b : Branch, b.forkPoint = seq ∧ b.head = seq ∧
        h.Restreams (h.repointPublished faults room published seq base).2 room published
          { h.stream room published with pointer := some b, base := some base, tail := .empty } := by
  unfold repointPublished writeBranchBase
  obtain ⟨-, hCall⟩ | ⟨hFault, hCall⟩ := h.call_cases faults .writeBranchBase room
    fun l => { l with branchBases := l.branchBases.insert published base }
  · rw [hCall]
    exact .inl rfl
  · have hWritten := stream_of_call hCall
    rw [hCall]
    dsimp only
    generalize h.write room (fun l => { l with
      branchBases := l.branchBases.insert published base }) = h₁ at hWritten
    have hBase := (h₁.stream_setBase room published (some base)).of_eq hWritten
    rw [hWritten] at hBase
    obtain ⟨hRefused, hSame⟩ | ⟨hOk, registry, hPoint, -⟩ :=
      (h₁.setBase room published (some base)).mutateBranches_stream faults room
        (·.pointPublished published seq)
    · left
      have hBack : ∀ previous, h₁.branchBases room published = previous →
          ((h₁.setBase room published (some base)).setBase room published previous).stream =
            h.stream := by
        rintro previous rfl
        have hRestored := hBase.trans (stream_setBase _ room published
          (h₁.branchBases room published))
        rw [hBase.self] at hRestored
        have hHeld : h₁.branchBases room published = (h.stream room published).base := by
          rw [← hWritten]
          rfl
        rw [hHeld] at hRestored ⊢
        exact Restreams.same hRestored
      split
      · next hEq =>
        rw [hEq] at hRefused
        exact absurd rfl hRefused
      · next hEq =>
        rw [hEq] at hSame
        dsimp only at hSame
        subst hSame
        split
        · next hPrevious => exact (stream_attempt ..).trans (hBack _ rfl)
        · next hPrevious => exact (stream_attempt ..).trans (hBack _ rfl)
    · right
      obtain ⟨b, hFork, hHead, hMoves⟩ := BranchRegistry.pointPublished_eq_some hPoint
      refine ⟨hFault, b, hFork, hHead, ?_⟩
      obtain ⟨hRefused, -⟩ | ⟨-, -, hSet⟩ :=
        @mutateBranches_restreams σ (h₁.setBase room published (some base)) faults room
          published (·.pointPublished published seq) (some b) fun registry' hPoint' => by
            obtain rfl := Option.some.inj (hPoint.symm.trans hPoint')
            exact hMoves
      · exact absurd hOk hRefused
      · have hPointed := hBase.trans hSet
        rw [hBase.self] at hPointed
        generalize (h₁.setBase room published (some base)).mutateBranches faults room
          (·.pointPublished published seq) = o at hOk hPointed ⊢
        obtain ⟨result, h₂⟩ := o
        obtain rfl : result = .ok true := hOk
        have hCleared := hPointed.trans (h₂.stream_setTail room published .empty)
        rw [hPointed.self] at hCleared
        exact hCleared.congr (stream_attempt ..)

theorem stream_createVersionWith (h : StoredHub σ) (faults : Faults) (room : RoomId) (name : Bytes)
    (origin : Option Bytes) (snapshot : Option (Snapshot σ)) :
    (h.createVersionWith faults room name origin snapshot).2.stream = h.stream := by
  unfold createVersionWith
  split
  · rfl
  · dsimp only
    split
    · rfl
    · split
      · rfl
      · next hCall =>
        have hSame := stream_of_call hCall
        exact hSame

theorem stream_of_persistVersions (hCall : h.persistVersions faults room = .ok h') :
    h'.stream = h.stream := stream_of_call hCall

theorem stream_retainByOrigin (h : StoredHub σ) (faults : Faults) (room : RoomId) (origin : Bytes)
    (keep : Nat) : (h.retainByOrigin faults room origin keep).2.stream = h.stream := by
  unfold retainByOrigin
  dsimp only
  split
  · rfl
  · split
    · rfl
    · next hCall =>
      have hSame := stream_of_persistVersions hCall
      exact hSame

theorem stream_renameVersion (h : StoredHub σ) (faults : Faults) (room : RoomId)
    (source target : Bytes) : (h.renameVersion faults room source target).2.stream = h.stream := by
  unfold renameVersion
  dsimp only
  split
  · rfl
  · split
    · rfl
    · split
      · rfl
      · next hCall =>
        have hSame := stream_of_persistVersions hCall
        exact hSame

theorem stream_deleteVersion (h : StoredHub σ) (faults : Faults) (room : RoomId) (name : Bytes) :
    (h.deleteVersion faults room name).2.stream = h.stream := by
  unfold deleteVersion
  dsimp only
  split
  · rfl
  · split
    · rfl
    · next hCall =>
      have hSame := stream_of_persistVersions hCall
      exact hSame

theorem restoreAsBranch_stream (h : StoredHub σ) (faults : Faults) (room : RoomId)
    (version new : Bytes) : (h.restoreAsBranch faults room version new).2.stream =
      (h.forkBranchFromVersion faults room new version).2.stream := by
  unfold restoreAsBranch
  split
  · next hEq => rw [hEq]
  · next hEq => rw [hEq]
  · next h₁ hEq =>
    rw [hEq]
    have hAudit := h₁.stream_createVersionWith faults room (restoreAudit new (h₁.seq room)) none none
    unfold createVersion
    split
    · next hEq => rwa [hEq] at hAudit
    · next h₂ hEq =>
      rw [hEq] at hAudit
      have hActive := h₂.stream_setActiveBranch faults room new
      split
      · next hEq =>
        rw [hEq] at hActive
        exact hActive.trans hAudit
      · next hEq =>
        rw [hEq] at hActive
        exact hActive.trans hAudit

variable [Folds σ]

/-- Whether a publish comes to write out its base. -/
def repoints (h : StoredHub σ) (faults : Faults) (room : RoomId) (published : Bytes) : Bool :=
  let source := h.activeBranch room
  if published = MAIN_BRANCH ∨ source = published then false
  else
    match h.materializeBranch room source with
    | .state state =>
      let seq := h.publishedSeq room
      match (h.createVersionWith faults room (publishAudit published source seq) none
          (some ⟨seq, state, h.streamHistory room source⟩)).1 with
      | .error _ => false
      | .ok _ => !faults .writeBranchBase
    | _ => false

theorem publish_streams (h : StoredHub σ) (faults : Faults) (room : RoomId) (published : Bytes) :
    (h.publish faults room published).2.stream = h.stream ∨
      h.repoints faults room published = true ∧ ∃ state history, ∃ b : Branch,
        h.materializeBranch room (h.activeBranch room) = .state state ∧
          b.forkPoint = h.publishedSeq room ∧ b.head = h.publishedSeq room ∧
            h.Restreams (h.publish faults room published).2 room published
              { h.stream room published with
                pointer := some b
                base := some ⟨state, history⟩
                tail := .empty } := by
  unfold publish repoints publishedSeq
  dsimp only
  split
  · exact .inl rfl
  · cases hState : h.materializeBranch room (h.activeBranch room) with
    | empty => exact .inl rfl
    | absent => exact .inl rfl
    | unreadable => exact .inl rfl
    | state state =>
      dsimp only
      generalize (h.branch room (h.activeBranch room)).elim (h.seq room) Branch.head = seq
      generalize h.streamHistory room (h.activeBranch room) = history
      have hCapture := h.stream_createVersionWith faults room
        (publishAudit published (h.activeBranch room) seq) none (some ⟨seq, state, history⟩)
      generalize h.createVersionWith faults room (publishAudit published (h.activeBranch room) seq)
        none (some ⟨seq, state, history⟩) = o at hCapture ⊢
      obtain ⟨result, h₁⟩ := o
      cases result with
      | error e => exact .inl hCapture
      | ok created =>
        dsimp only at hCapture ⊢
        have hPoint := h₁.repointPublished_streams faults room published seq ⟨state, history⟩
        have hLeft : ∀ h₂, (h₁.repointPublished faults room published seq ⟨state, history⟩).2 = h₂ →
            h₂.stream = h.stream ∨ (!faults .writeBranchBase) = true ∧ ∃ state' history',
              ∃ b : Branch, BranchState.state state = .state state' ∧ b.forkPoint = seq ∧
                b.head = seq ∧ h.Restreams h₂ room published
                  { h.stream room published with
                    pointer := some b
                    base := some ⟨state', history'⟩
                    tail := .empty } := by
          rintro h₂ rfl
          obtain hSame | ⟨hFault, b, hFork, hHead, hSet⟩ := hPoint
          · exact .inl (hSame.trans hCapture)
          · have hSet := hSet.of_eq hCapture
            rw [hCapture] at hSet
            exact .inr ⟨by simp [hFault], state, history, b, rfl, hFork, hHead, hSet⟩
        split
        · next hEq => exact hLeft _ (by rw [hEq])
        · next hEq => exact hLeft _ (by rw [hEq])

theorem ingestBranch_streams (h : StoredHub σ) (faults : Faults) (room : RoomId) {branch : Bytes}
    (hNamed : branch ≠ MAIN_BRANCH) (ops : List Op) (version : Option Nat) :
    (h.ingestBranch faults room branch ops version).2.stream = h.stream ∨
      ∃ b head fresh, (h.stream room branch).pointer = some b ∧
        fresh = freshRecords (h.stream room branch).tail.seen ∅
          (ops.map fun op => ⟨op, version⟩) ∧
        (faults .writeBranches = false →
          head = b.forkPoint + (fresh.foldl BranchLog.push (h.stream room branch).tail).ops.length) ∧
        h.Restreams (h.ingestBranch faults room branch ops version).2 room branch
          { h.stream room branch with
            pointer := some { b with head }
            tail := fresh.foldl BranchLog.push (h.stream room branch).tail } := by
  unfold ingestBranch
  rw [if_neg hNamed]
  cases hBranch : (h.branches room).branch branch with
  | none => exact .inl rfl
  | some b =>
    dsimp only
    generalize hFresh : freshRecords (h.branchLogs room branch).seen ∅
      (ops.map fun op => (⟨op, version⟩ : StoredOp)) = fresh
    obtain ⟨-, hAppend⟩ | ⟨-, files, hAppend⟩ := h.appendBranch_cases faults room branch fresh
    · rw [hAppend]
      exact .inl rfl
    · rw [hAppend]
      dsimp only
      right
      generalize hLog : fresh.foldl BranchLog.push (h.branchLogs room branch) = log
      have hTail := ((h.withFiles files).stream_setTail room branch log).of_eq
        (show (h.withFiles files).stream = h.stream from rfl)
      have hPointer : (h.stream room branch).pointer = some b := hBranch
      have hUnmoved : h.Restreams ((h.withFiles files).setTail room branch log) room branch
          { h.stream room branch with pointer := some { b with head := b.head }, tail := log } := by
        rw [← hPointer]
        exact hTail
      obtain ⟨hSame, hEq⟩ | ⟨registry, hMoved, ⟨hFault, hEq⟩ | ⟨hFault, hEq⟩⟩ :=
        ((h.withFiles files).setTail room branch log).mutateBranches_cases faults room
          (·.setHead branch (b.forkPoint + log.ops.length))
      · rw [hEq]
        exact ⟨b, b.head, fresh, hPointer, hFresh.symm,
          fun _ => hLog ▸ BranchRegistry.setHead_eq_none hBranch hSame, hLog ▸ hUnmoved⟩
      · rw [hEq]
        refine ⟨b, b.head, fresh, hPointer, hFresh.symm, fun hLands => ?_, hLog ▸ hUnmoved⟩
        exact absurd (hFault.symm.trans hLands) (by simp)
      · refine ⟨b, b.forkPoint + log.ops.length, fresh, hPointer, hFresh.symm, fun _ => hLog ▸ rfl, ?_⟩
        obtain ⟨hRefused, -⟩ | ⟨-, -, hSet⟩ :=
          @mutateBranches_restreams σ ((h.withFiles files).setTail room branch log) faults room branch
            (·.setHead branch (b.forkPoint + log.ops.length)) _
            fun registry' hMoved' => BranchRegistry.setHead_eq_some hBranch hMoved'
        · rw [hEq] at hRefused
          exact absurd rfl hRefused
        · have hBoth := hTail.trans hSet
          rw [hTail.self] at hBoth
          rw [hEq] at hBoth ⊢
          exact hLog ▸ hBoth

end Cases

/-! ### The default branch's log -/

section Logs

/-- How much of a log its replica has folded away. -/
def floor (main : Option (LoggedRoom σ)) : Nat := main.elim 0 LoggedRoom.baseSeq

def retained (main : Option (LoggedRoom σ)) : List StoredOp := main.elim [] LoggedRoom.log

def logged (main : Option (LoggedRoom σ)) : Finset OpId := main.elim ∅ LoggedRoom.seen

/-- The ids of a log are distinct, and in its dedup set. -/
structure Deduped (recs : List StoredOp) (seen : Finset OpId) : Prop where
  once : (recs.map fun rec => rec.op.id).Nodup
  seen : ∀ rec ∈ recs, rec.op.id ∈ seen

theorem Deduped.nil (seen : Finset OpId) : Deduped [] seen :=
  ⟨List.nodup_nil, fun _ hRec => absurd hRec List.not_mem_nil⟩

theorem Deduped.snoc {recs : List StoredOp} {seen : Finset OpId} (h : Deduped recs seen)
    {rec : StoredOp} (hNew : rec.op.id ∉ seen) :
    Deduped (recs ++ [rec]) (insert rec.op.id seen) where
  once := by
    rw [List.map_append, List.map_singleton, List.nodup_append]
    refine ⟨h.once, List.nodup_singleton _, ?_⟩
    rintro id hId other hOther rfl
    obtain ⟨held, hHeld, rfl⟩ := List.mem_map.mp hId
    rw [List.mem_singleton] at hOther
    exact hNew (hOther ▸ h.seen held hHeld)
  seen other hOther := by
    rw [Finset.mem_insert]
    obtain hHeld | hLast := List.mem_append.mp hOther
    · exact .inr (h.seen other hHeld)
    · exact .inl (congrArg (fun rec : StoredOp => rec.op.id) (List.mem_singleton.mp hLast))

theorem Deduped.push {log : BranchLog} (h : Deduped log.ops log.seen) {fresh : List StoredOp}
    (hOnce : (fresh.map fun rec => rec.op.id).Nodup)
    (hNew : ∀ rec ∈ fresh, rec.op.id ∉ log.seen) :
    Deduped (fresh.foldl BranchLog.push log).ops (fresh.foldl BranchLog.push log).seen := by
  induction fresh generalizing log with
  | nil => exact h
  | cons rec fresh ih =>
    rw [List.map_cons, List.nodup_cons] at hOnce
    obtain ⟨hHead, hRest⟩ := List.forall_mem_cons.mp hNew
    refine ih (h.snoc hHead) hOnce.2 fun other hOther hSeen => ?_
    obtain hSame | hOld := Finset.mem_insert.mp hSeen
    · exact hOnce.1 (List.mem_map.mpr ⟨other, hOther, hSame⟩)
    · exact hRest other hOther hOld

/-- The records a batch brings are new to the dedup set, each in its turn. -/
theorem mem_freshRecords {recs : List StoredOp} {seen batch : Finset OpId} {rec : StoredOp}
    (h : rec ∈ freshRecords seen batch recs) : rec.op.id ∉ seen ∧ rec.op.id ∉ batch := by
  induction recs generalizing batch with
  | nil => cases h
  | cons first recs ih =>
    rw [freshRecords] at h
    split at h
    · next hFresh =>
      obtain rfl | hRest := List.mem_cons.mp h
      · exact hFresh.2
      · obtain ⟨hSeen, hBatch⟩ := ih hRest
        exact ⟨hSeen, fun hOld => hBatch (Finset.mem_insert_of_mem hOld)⟩
    · exact ih h

theorem nodup_freshRecords (recs : List StoredOp) (seen batch : Finset OpId) :
    ((freshRecords seen batch recs).map fun rec => rec.op.id).Nodup := by
  induction recs generalizing batch with
  | nil => exact List.nodup_nil
  | cons first recs ih =>
    rw [freshRecords]
    split
    · rw [List.map_cons, List.nodup_cons]
      refine ⟨fun hTwice => ?_, ih _⟩
      obtain ⟨rec, hRec, hSame⟩ := List.mem_map.mp hTwice
      exact (mem_freshRecords hRec).2 (by rw [hSame]; exact Finset.mem_insert_self ..)
    · exact ih _

/-- A log goes on where its floor rises, or where it stands and records are appended. -/
structure Continues (m m' : Option (LoggedRoom σ)) : Prop where
  rises : floor m ≤ floor m'
  grows : floor m' = floor m → retained m <+: retained m'
  deduped : Deduped (retained m) (logged m) → Deduped (retained m') (logged m')

namespace Continues

variable {m m' m'' : Option (LoggedRoom σ)}

theorem of_eq (hFloor : floor m' = floor m) (hLog : retained m' = retained m)
    (hSeen : logged m' = logged m) : Continues m m' where
  rises := hFloor.ge
  grows _ := by rw [hLog]
  deduped h := by
    rw [hLog, hSeen]
    exact h

theorem refl (m : Option (LoggedRoom σ)) : Continues m m := of_eq rfl rfl rfl

theorem trans (h : Continues m m') (h' : Continues m' m'') : Continues m m'' where
  rises := h.rises.trans h'.rises
  grows hSame := by
    have hFirst : floor m' = floor m := le_antisymm (h'.rises.trans_eq hSame) h.rises
    exact (h.grows hFirst).trans (h'.grows (hSame.trans hFirst.symm))
  deduped hOld := h'.deduped (h.deduped hOld)

theorem compact (r : LoggedRoom σ) : Continues (some r) (some r.compact) where
  rises := Nat.le_add_right ..
  grows hSame := by
    have hEmpty : r.baseSeq + r.log.length = r.baseSeq := hSame
    have hNil : r.log = [] := List.eq_nil_of_length_eq_zero (by omega)
    change r.log <+: []
    rw [hNil]
  deduped _ := .nil _

variable [Folds σ]

theorem commit (r : LoggedRoom σ) {rec : StoredOp} (hNew : rec.op.id ∉ r.seen) :
    Continues (some r) (some (r.commit rec)) where
  rises := le_rfl
  grows _ := List.prefix_append r.log [rec]
  deduped h := h.snoc hNew

theorem foldl_commit (fresh : List StoredOp) (r : LoggedRoom σ)
    (hOnce : (fresh.map fun rec => rec.op.id).Nodup) (hNew : ∀ rec ∈ fresh, rec.op.id ∉ r.seen) :
    Continues (some r) (some (fresh.foldl LoggedRoom.commit r)) := by
  induction fresh generalizing r with
  | nil => exact refl _
  | cons rec fresh ih =>
    rw [List.map_cons, List.nodup_cons] at hOnce
    obtain ⟨hHead, hRest⟩ := List.forall_mem_cons.mp hNew
    refine (commit r hHead).trans (ih _ hOnce.2 fun other hOther hSeen => ?_)
    obtain hSame | hOld := Finset.mem_insert.mp hSeen
    · exact hOnce.1 (List.mem_map.mpr ⟨other, hOther, hSame⟩)
    · exact hRest other hOther hOld

omit [Folds σ] in
theorem opened (m : Option (LoggedRoom σ)) (server : ClientId) (content : σ) :
    Continues m (some (m.getD (LoggedRoom.new server content))) := by
  cases m with
  | none => exact ⟨le_rfl, fun _ => List.prefix_rfl, fun _ => .nil _⟩
  | some r => exact refl _

end Continues

end Logs

/-! ### Calls on a room -/

/-- Streams differ in their default branches alone. Each of these goes on from its log, but
that of a seated room, of which nothing is retained. -/
structure GoesOn (h h' : StoredHub σ) (seated : Option RoomId) : Prop where
  streams : ∀ r n, h'.stream r n = { h.stream r n with main := h'.rooms r }
  goesOn : ∀ r, seated ≠ some r → Continues (h.rooms r) (h'.rooms r)
  seats : ∀ r, seated = some r → retained (h'.rooms r) = []

/-- No log changes. -/
structure Relabels (h h' : StoredHub σ) : Prop where
  streams : ∀ r n, h'.stream r n = { h.stream r n with main := h'.rooms r }
  floors : ∀ r, floor (h'.rooms r) = floor (h.rooms r)
  logs : ∀ r, retained (h'.rooms r) = retained (h.rooms r)
  dedups : ∀ r, logged (h'.rooms r) = logged (h.rooms r)

namespace Relabels

variable {h'' : StoredHub σ}

theorem of_eq (hSame : h'.stream = h.stream) : h.Relabels h' := by
  have hRooms (r : RoomId) : h'.rooms r = h.rooms r :=
    congrArg BranchStream.main (congrFun (congrFun hSame r) [])
  refine ⟨fun r n => ?_, fun r => by rw [hRooms], fun r => by rw [hRooms], fun r => by rw [hRooms]⟩
  rw [hSame, hRooms]
  rfl

theorem refl (h : StoredHub σ) : h.Relabels h := of_eq rfl

theorem trans (hFirst : h.Relabels h') (hThen : h'.Relabels h'') : h.Relabels h'' where
  streams r n := by rw [hThen.streams, hFirst.streams]
  floors r := (hThen.floors r).trans (hFirst.floors r)
  logs r := (hThen.logs r).trans (hFirst.logs r)
  dedups r := (hThen.dedups r).trans (hFirst.dedups r)

theorem setRoom {r r' : LoggedRoom σ} (hRoom : h.rooms room = some r)
    (hFloor : r'.baseSeq = r.baseSeq) (hLog : r'.log = r.log) (hSeen : r'.seen = r.seen) :
    h.Relabels (h.setRoom room r') := by
  have hKept {α : Type} (f : Option (LoggedRoom σ) → α) (hf : f (some r') = f (some r))
      (other : RoomId) : f ((h.setRoom room r').rooms other) = f (h.rooms other) := by
    by_cases hOther : other = room
    · rw [hOther, rooms_setRoom, hRoom, hf]
    · rw [show (h.setRoom room r').rooms other = h.rooms other from Function.update_of_ne hOther ..]
  exact ⟨fun _ _ => rfl, hKept floor hFloor, hKept retained hLog, hKept logged hSeen⟩

theorem persistMeta (h : StoredHub σ) (faults : Faults) (room : RoomId) :
    h.Relabels (h.persistMeta faults room) := of_eq (stream_attempt ..)

theorem ensureCreator (h : StoredHub σ) (faults : Faults) (room : RoomId) (actor : Bytes) :
    h.Relabels (h.ensureCreator faults room actor).2 := by
  unfold StoredHub.ensureCreator
  split
  · exact refl h
  · split
    · exact refl h
    · next r hRoom =>
      split
      · have hRooted : h.Relabels (h.setRoom room { r with creator := some actor }) :=
          setRoom hRoom rfl rfl rfl
        exact hRooted.trans (persistMeta ..)
      · exact refl h

theorem claimClient (h : StoredHub σ) (faults : Faults) (room : RoomId) (client : ClientId)
    (actor : Bytes) : h.Relabels (h.claimClient faults room client actor) := by
  unfold StoredHub.claimClient
  split
  · exact refl h
  · split
    · exact refl h
    · next r hRoom =>
      split
      · exact refl h
      · have hClaimed : h.Relabels (h.setRoom room
            { r with clientActors := r.clientActors.insert client actor }) :=
          setRoom hRoom rfl rfl rfl
        exact hClaimed.trans (persistMeta ..)

theorem raiseMaxOpVersion (h : StoredHub σ) (faults : Faults) (room : RoomId)
    (version : Option Nat) : h.Relabels (h.raiseMaxOpVersion faults room version) := by
  unfold StoredHub.raiseMaxOpVersion
  split
  · exact refl h
  · next r hRoom =>
    split
    · have hRaised : h.Relabels (h.setRoom room { r with maxOpVersion := version }) :=
        setRoom hRoom rfl rfl rfl
      exact hRaised.trans (persistMeta ..)
    · exact refl h

theorem bindGoverning (h : StoredHub σ) (faults : Faults) (room : RoomId) (app : Bytes)
    (version : Nat) : h.Relabels (h.bindGoverning faults room app version) := by
  unfold StoredHub.bindGoverning
  split
  · exact refl h
  · have hBound : h.Relabels (h.setGoverning room (some (app, version))) := of_eq rfl
    exact hBound.trans (persistMeta ..)

theorem adoptClaims (h : StoredHub σ) (room : RoomId)
    (claims : ExtTreeMap ClientId Bytes compare) : h.Relabels (h.adoptClaims room claims) := by
  unfold StoredHub.adoptClaims
  split
  · exact refl h
  · next r hRoom => exact setRoom hRoom rfl rfl rfl

end Relabels

namespace GoesOn

variable {h'' : StoredHub σ} {seated : Option RoomId}

theorem trans (hFirst : h.GoesOn h' none) (hThen : h'.GoesOn h'' none) : h.GoesOn h'' none where
  streams r n := by rw [hThen.streams, hFirst.streams]
  goesOn r hr := (hFirst.goesOn r hr).trans (hThen.goesOn r hr)
  seats r hr := by cases hr

theorem relabels (hFirst : h.GoesOn h' seated) (hThen : h'.Relabels h'') :
    h.GoesOn h'' seated where
  streams r n := by rw [hThen.streams, hFirst.streams]
  goesOn r hr := (hFirst.goesOn r hr).trans
    (.of_eq (hThen.floors r) (hThen.logs r) (hThen.dedups r))
  seats r hr := (hThen.logs r).trans (hFirst.seats r hr)

theorem of_relabels (hSame : h.Relabels h') : h.GoesOn h' none where
  streams := hSame.streams
  goesOn r _ := .of_eq (hSame.floors r) (hSame.logs r) (hSame.dedups r)
  seats r hr := by cases hr

theorem of_eq (hSame : h'.stream = h.stream) : h.GoesOn h' none := of_relabels (.of_eq hSame)

theorem setRoom {r : LoggedRoom σ} (hGoesOn : Continues (h.rooms room) (some r)) :
    h.GoesOn (h.setRoom room r) none := by
  refine ⟨fun _ _ => rfl, fun other _ => ?_, fun other hOther => by cases hOther⟩
  by_cases hOther : other = room
  · rw [hOther, rooms_setRoom]
    exact hGoesOn
  · rw [show (h.setRoom room r).rooms other = h.rooms other from Function.update_of_ne hOther ..]
    exact .refl _

theorem compact (h : StoredHub σ) (faults : Faults) (room : RoomId) :
    h.GoesOn (h.compact faults room).2 none := by
  cases hRoom : h.rooms room with
  | none =>
    unfold StoredHub.compact
    rw [hRoom]
    exact of_eq rfl
  | some r =>
    have hFolded : h.GoesOn (h.setRoom room r.compact) none :=
      setRoom (by rw [hRoom]; exact .compact r)
    obtain ⟨-, hEq⟩ | ⟨-, files, hEq⟩ := compact_cases faults hRoom
    · rw [hEq]
      exact hFolded
    · rw [hEq]
      exact hFolded.relabels (.of_eq rfl)

/-- An install that is refused changes no stream. -/
theorem installRoomState (h : StoredHub σ) (faults : Faults) (room : RoomId)
    (state : Option (DocState σ)) (floor : Option Nat) (creator : Option Bytes)
    (history : List StoredOp) :
    (∃ e, h.installRoomState faults room state floor creator history = (.error e, h)) ∨
      (h.installRoomState faults room state floor creator history).1 = .ok () ∧
        h.GoesOn (h.installRoomState faults room state floor creator history).2 (some room) := by
  unfold StoredHub.installRoomState
  split
  · exact .inl ⟨_, rfl⟩
  · next state =>
    dsimp only
    split
    · exact .inl ⟨_, rfl⟩
    · next h₁ hCall =>
      refine .inr ⟨rfl, ?_⟩
      have hWritten := Relabels.of_eq (stream_of_call hCall)
      have hSeated (r : LoggedRoom σ) (hNil : r.log = []) :
          h.GoesOn (h₁.setRoom room r) (some room) := by
        refine ⟨fun r n => ?_, fun other hOther => ?_, fun other hOther => ?_⟩
        · change ({ h₁.stream _ n with main := _ } : BranchStream σ) = _
          rw [hWritten.streams]
        · have hNe : other ≠ room := fun hEq => hOther (congrArg some hEq.symm)
          have hKept : (h₁.setRoom room r).rooms other = h₁.rooms other :=
            Function.update_of_ne hNe ..
          rw [hKept]
          exact .of_eq (hWritten.floors other) (hWritten.logs other) (hWritten.dedups other)
        · obtain rfl := Option.some.inj hOther
          rw [rooms_setRoom]
          exact hNil
      exact (hSeated _ rfl).relabels (.persistMeta ..)

theorem importRoom (h : StoredHub σ) (faults : Faults) (room : RoomId)
    (state : Option (DocState σ)) (history : List StoredOp) :
    ((h.importRoom faults room state history).1 ≠ .ok true ∧
        (h.importRoom faults room state history).2 = h) ∨
      (h.importRoom faults room state history).1 = .ok true ∧
        h.GoesOn (h.importRoom faults room state history).2 (some room) := by
  unfold StoredHub.importRoom
  split
  · exact .inl ⟨by simp, rfl⟩
  · obtain ⟨e, hEq⟩ | ⟨hOk, hSeats⟩ := installRoomState h faults room state none none history
    · rw [hEq]
      exact .inl ⟨by simp, rfl⟩
    · generalize h.installRoomState faults room state none none history = o at hOk hSeats ⊢
      obtain ⟨result, h₁⟩ := o
      obtain rfl : result = .ok () := hOk
      exact .inr ⟨rfl, hSeats⟩

theorem cloneRoom (h : StoredHub σ) (faults : Faults) (source target : RoomId) :
    ((h.cloneRoom faults source target).1 ≠ .ok true ∧
        (h.cloneRoom faults source target).2 = h) ∨
      (h.cloneRoom faults source target).1 = .ok true ∧
        h.GoesOn (h.cloneRoom faults source target).2 (some target) := by
  unfold StoredHub.cloneRoom
  split
  · exact .inl ⟨by simp, rfl⟩
  · split
    · exact .inl ⟨by simp, rfl⟩
    · next r _ =>
      dsimp only
      obtain ⟨e, hEq⟩ | ⟨hOk, hSeats⟩ := installRoomState h faults target
        (some r.doc.toDocState) none r.creator r.history
      · rw [hEq]
        exact .inl ⟨by simp, rfl⟩
      · generalize h.installRoomState faults target (some r.doc.toDocState) none r.creator
          r.history = o at hOk hSeats ⊢
        obtain ⟨result, h₁⟩ := o
        obtain rfl : result = .ok () := hOk
        refine .inr ⟨rfl, ?_⟩
        dsimp only at hSeats ⊢
        refine ((GoesOn.relabels ?_ (.raiseMaxOpVersion ..)).relabels (.adoptClaims ..)).relabels
          (.persistMeta ..)
        split
        · exact hSeats.relabels (.bindGoverning ..)
        · split
          · have hUnbound : h.GoesOn (h₁.setGoverning target none) (some target) :=
              hSeats.relabels (.of_eq rfl)
            exact hUnbound.relabels (.persistMeta ..)
          · exact hSeats

variable [Folds σ]

theorem ingestRecords (h : StoredHub σ) (faults : Faults) (room : RoomId)
    (recs : List StoredOp) : h.GoesOn (h.ingestRecords faults room recs).2 none := by
  unfold StoredHub.ingestRecords
  dsimp only
  have hOpened := Continues.opened (h.rooms room) h.server h.content
  generalize (h.rooms room).getD (LoggedRoom.new h.server h.content) = r at hOpened
  have hNew : ∀ rec ∈ freshRecords r.seen ∅ recs, rec.op.id ∉ r.seen :=
    fun rec hRec => (mem_freshRecords hRec).1
  have hOnce := nodup_freshRecords recs r.seen ∅
  generalize freshRecords r.seen ∅ recs = fresh at hNew hOnce
  obtain ⟨-, hAppend⟩ | ⟨-, files, hAppend⟩ :=
    (h.setRoom room r).appendRecords_cases faults room fresh
  · rw [hAppend]
    exact setRoom hOpened
  · rw [hAppend]
    dsimp only
    have hGrown : h.GoesOn (((h.setRoom room r).withFiles files).setRoom room
        (fresh.foldl LoggedRoom.commit r)) none := by
      have hOpen : h.GoesOn ((h.setRoom room r).withFiles files) none :=
        (setRoom hOpened).relabels (.of_eq rfl)
      refine hOpen.trans (setRoom ?_)
      have hRoom : ((h.setRoom room r).withFiles files).rooms room = some r := rooms_setRoom ..
      rw [hRoom]
      exact .foldl_commit fresh r hOnce hNew
    generalize hLogged : (if (fresh.foldl LoggedRoom.commit r).maxOpVersion ≠ r.maxOpVersion then
      (((h.setRoom room r).withFiles files).setRoom room
        (fresh.foldl LoggedRoom.commit r)).persistMeta faults room
      else ((h.setRoom room r).withFiles files).setRoom room (fresh.foldl LoggedRoom.commit r)) = h₁
    have hNoted : h.GoesOn h₁ none := by
      rw [← hLogged]
      split
      · exact hGrown.relabels (.persistMeta ..)
      · exact hGrown
    split
    · have hCompact := GoesOn.compact h₁ faults room
      split
      · next hEq =>
        rw [hEq] at hCompact
        exact hNoted.trans hCompact
      · next hEq =>
        rw [hEq] at hCompact
        exact hNoted.trans hCompact
    · exact hNoted

end GoesOn

section Effects

variable [Folds σ]

/-- The room a call installs a whole replica in. -/
def seat (h : StoredHub σ) (faults : Faults) : HubCall σ → Option RoomId
  | .importRoom room state history =>
    if (h.importRoom faults room state history).1.toOption = some true then some room else none
  | .installSnapshot room state seq creator history =>
    if (h.installSnapshot faults room state seq creator history).1.toOption.isSome then some room
    else none
  | .cloneRoom source target =>
    if (h.cloneRoom faults source target).1.toOption = some true then some target else none
  | _ => none

/-- All that a call can do to the streams of a hub. -/
inductive Effect (h : StoredHub σ) (faults : Faults) : HubCall σ → StoredHub σ → Prop
  | rooms {call : HubCall σ} {h' : StoredHub σ} (hGoesOn : h.GoesOn h' (h.seat faults call)) :
    Effect h faults call h'
  | appended {room : RoomId} {branch : Bytes} {ops : List Op} {version : Option Nat}
    {h' : StoredHub σ} {b : Branch} {head : Nat} {fresh : List StoredOp}
    (hNamed : branch ≠ MAIN_BRANCH) (hPointer : (h.stream room branch).pointer = some b)
    (hFresh : fresh = freshRecords (h.stream room branch).tail.seen ∅
      (ops.map fun op => ⟨op, version⟩))
    (hHead : faults .writeBranches = false →
      head = b.forkPoint + (fresh.foldl BranchLog.push (h.stream room branch).tail).ops.length)
    (hSet : h.Restreams h' room branch { h.stream room branch with
      pointer := some { b with head }
      tail := fresh.foldl BranchLog.push (h.stream room branch).tail }) :
    Effect h faults (.ingestBranch room branch ops version) h'
  | forked {room : RoomId} {new source : Bytes} {position : Nat} {h' : StoredHub σ}
    (hOk : (h.forkBranch faults room new source position).1 = .ok true)
    (hFree : (h.stream room new).pointer = none)
    (hSet : h.Restreams h' room new { h.stream room new with
      pointer := some ⟨new, h.forkPosition room source position,
        h.forkPosition room source position, false⟩ }) :
    Effect h faults (.forkBranch room new source position) h'
  | renamed {room : RoomId} {source target : Bytes} {h' : StoredHub σ} {b : Branch}
    (hOk : (h.renameBranch faults room source target).1 = .ok true)
    (hNamed : source ≠ MAIN_BRANCH) (hFree : (h.stream room target).pointer = none)
    (hSource : (h.stream room source).pointer = some b)
    (hSet : ∀ r n, h'.stream r n =
      if r = room ∧ n = target then
        { h.stream room target with pointer := some { b with name := target } }
      else if r = room ∧ n = source then { h.stream room source with pointer := none }
      else h.stream r n) :
    Effect h faults (.renameBranch room source target) h'
  | deleted {room : RoomId} {name : Bytes} {h' : StoredHub σ}
    (hOk : (h.mutateBranches faults room (·.delete name)).1 = .ok true)
    (hSet : h.Restreams h' room name (h.stream room name).gone) :
    Effect h faults (.deleteBranch room name) h'
  | based {call : HubCall σ} {room : RoomId} {new version : Bytes} {h' : StoredHub σ}
    {v : Version σ}
    (hCall : call = .forkBranchFromVersion room new version ∨
      call = .restoreAsBranch room version new)
    (hBase : h.versionBase faults room new version = some v)
    (hVersion : (h.versions room)[version]? = some v)
    (hFree : (h.stream room new).pointer = none)
    (hSet : h.Restreams h' room new { h.stream room new with
      pointer := some ⟨new, v.seq, v.seq, false⟩
      base := some ⟨v.state, v.history⟩ }) :
    Effect h faults call h'
  | unbased {call : HubCall σ} {room : RoomId} {new version : Bytes} {h' : StoredHub σ}
    {v : Version σ}
    (hCall : call = .forkBranchFromVersion room new version ∨
      call = .restoreAsBranch room version new)
    (hBase : h.versionBase faults room new version = some v)
    (hSet : h.Restreams h' room new { h.stream room new with base := none }) :
    Effect h faults call h'
  | published {room : RoomId} {published : Bytes} {h' : StoredHub σ} {b : Branch}
    {state : DocState σ} {history : List StoredOp}
    (hBase : h.repoints faults room published = true)
    (hState : h.materializeBranch room (h.activeBranch room) = .state state)
    (hFork : b.forkPoint = h.publishedSeq room) (hHead : b.head = h.publishedSeq room)
    (hSet : h.Restreams h' room published { h.stream room published with
      pointer := some b
      base := some ⟨state, history⟩
      tail := .empty }) :
    Effect h faults (.publish room published) h'

namespace Effect

variable {call : HubCall σ}

theorem of_stream (hSeat : h.seat faults call = none) (hSame : h'.stream = h.stream) :
    Effect h faults call h' := .rooms (by rw [hSeat]; exact .of_eq hSame)

theorem of_goesOn (hSeat : h.seat faults call = none) (hGoesOn : h.GoesOn h' none) :
    Effect h faults call h' := .rooms (by rw [hSeat]; exact hGoesOn)

theorem of_relabels (hSeat : h.seat faults call = none) (hSame : h.Relabels h') :
    Effect h faults call h' := of_goesOn hSeat (.of_relabels hSame)

theorem of_forkBranchFromVersion {new version : Bytes}
    (hCall : call = .forkBranchFromVersion room new version ∨
      call = .restoreAsBranch room version new)
    (hSame : h'.stream = (h.forkBranchFromVersion faults room new version).2.stream) :
    Effect h faults call h' := by
  have hSeat : h.seat faults call = none := by
    obtain rfl | rfl := hCall
    · rfl
    · rfl
  obtain ⟨-, hKept⟩ | ⟨v, hBase, hVersion, hSet | ⟨hFree, hSet⟩⟩ :=
    h.forkBranchFromVersion_streams faults room new version
  · exact of_stream hSeat (hSame.trans hKept)
  · exact .unbased hCall hBase (hSet.congr hSame)
  · exact .based hCall hBase hVersion hFree (hSet.congr hSame)

end Effect

/-- The inversion of a call: what it can do to the streams. -/
theorem perform_effect (h : StoredHub σ) (faults : Faults) (call : HubCall σ) :
    Effect h faults call (h.perform faults call).2 := by
  cases call with
  | ingest room ops version => exact .of_goesOn rfl (.ingestRecords ..)
  | ingestBranch room branch ops version =>
    change Effect h faults _ (h.ingestBranch faults room branch ops version).2
    by_cases hMain : branch = MAIN_BRANCH
    · refine .of_goesOn rfl ?_
      rw [ingestBranch, if_pos hMain]
      exact .ingestRecords ..
    · obtain hSame | ⟨b, head, fresh, hPointer, hFresh, hHead, hSet⟩ :=
        h.ingestBranch_streams faults room hMain ops version
      · exact .of_stream rfl hSame
      · exact .appended hMain hPointer hFresh hHead hSet
  | compact room => exact .of_goesOn rfl (.compact ..)
  | setCompactionThreshold threshold => exact .of_stream rfl rfl
  | importRoom room state history =>
    obtain ⟨hRefused, hSame⟩ | ⟨hOk, hSeats⟩ := GoesOn.importRoom h faults room state history
    · have hSeat : h.seat faults (.importRoom room state history) = none :=
        if_neg fun hOption => hRefused (eq_ok_of_toOption hOption)
      exact .of_stream hSeat (congrArg stream hSame)
    · have hSeat : h.seat faults (.importRoom room state history) = some room :=
        if_pos (by rw [hOk]; rfl)
      exact .rooms (by rw [hSeat]; exact hSeats)
  | installSnapshot room state seq creator history =>
    obtain ⟨e, hEq⟩ | ⟨hOk, hSeats⟩ :=
      GoesOn.installRoomState h faults room state (some seq) creator history
    · have hSeat : h.seat faults (.installSnapshot room state seq creator history) = none :=
        if_neg (by rw [installSnapshot, hEq]; simp [Except.toOption])
      exact .of_stream hSeat (congrArg (fun o => o.2.stream) hEq)
    · have hSeat : h.seat faults (.installSnapshot room state seq creator history) = some room :=
        if_pos (by rw [installSnapshot, hOk]; rfl)
      exact .rooms (by rw [hSeat]; exact hSeats)
  | cloneRoom source target =>
    obtain ⟨hRefused, hSame⟩ | ⟨hOk, hSeats⟩ := GoesOn.cloneRoom h faults source target
    · have hSeat : h.seat faults (.cloneRoom source target) = none :=
        if_neg fun hOption => hRefused (eq_ok_of_toOption hOption)
      exact .of_stream hSeat (congrArg stream hSame)
    · have hSeat : h.seat faults (.cloneRoom source target) = some target :=
        if_pos (by rw [hOk]; rfl)
      exact .rooms (by rw [hSeat]; exact hSeats)
  | createVersion room name => exact .of_stream rfl (stream_createVersionWith ..)
  | createAutoVersion room name origin => exact .of_stream rfl (stream_createVersionWith ..)
  | retainByOrigin room origin keep => exact .of_stream rfl (stream_retainByOrigin ..)
  | renameVersion room source target => exact .of_stream rfl (stream_renameVersion ..)
  | deleteVersion room name => exact .of_stream rfl (stream_deleteVersion ..)
  | forkBranch room new source position =>
    obtain ⟨-, hSame⟩ | ⟨hOk, hFree, hSet⟩ := h.forkBranch_cases faults room new source position
    · exact .of_stream rfl (congrArg stream hSame)
    · exact .forked hOk hFree hSet
  | renameBranch room source target =>
    obtain ⟨-, hSame⟩ | ⟨hOk, hNamed, hFree, b, hSource, hSet⟩ :=
      h.renameBranch_cases faults room source target
    · exact .of_stream rfl (congrArg stream hSame)
    · exact .renamed hOk hNamed hFree hSource hSet
  | deleteBranch room name =>
    obtain ⟨-, hSame⟩ | ⟨hOk, hSet⟩ := h.deleteBranch_cases faults room name
    · exact .of_stream rfl hSame
    · exact .deleted hOk hSet
  | forkBranchFromVersion room new version => exact .of_forkBranchFromVersion (.inl rfl) rfl
  | restoreAsBranch room version new =>
    exact .of_forkBranchFromVersion (.inr rfl) (restoreAsBranch_stream ..)
  | publish room published =>
    obtain hSame | ⟨hBase, state, history, b, hState, hFork, hHead, hSet⟩ :=
      h.publish_streams faults room published
    · exact .of_stream rfl hSame
    · exact .published hBase hState hFork hHead hSet
  | setActiveBranch room branch => exact .of_stream rfl (stream_setActiveBranch ..)
  | ensureCreator room actor => exact .of_relabels rfl (.ensureCreator ..)
  | claimClient room client actor => exact .of_relabels rfl (.claimClient ..)
  | raiseMaxOpVersion room version => exact .of_relabels rfl (.raiseMaxOpVersion ..)
  | bindGoverning room app version => exact .of_relabels rfl (.bindGoverning ..)
  | persistEpoch room epoch => exact .of_stream rfl (stream_attempt ..)

end Effects

end StoredHub

end Server

end CrdtSync
