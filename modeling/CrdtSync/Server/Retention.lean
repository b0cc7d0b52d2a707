import CrdtSync.Core.Schema
import CrdtSync.Server.VersionIndexes

/-!
# Retention of automatic versions

A trigger's captures carry its identity as their origin, and after a capture all but the
newest of them, as many as its window says, are removed. Along any run the versions of an
origin stand in the order they were captured in, so what is kept is the last of them, and
nothing outside the origin goes.
-/

namespace CrdtSync

namespace Schema.TriggerEvent

/-- The event's name in a schema. -/
def asKebab : TriggerEvent → Bytes
  | connect => [99, 111, 110, 110, 101, 99, 116]
  | disconnect => [100, 105, 115, 99, 111, 110, 110, 101, 99, 116]
  | subscribe => [115, 117, 98, 115, 99, 114, 105, 98, 101]
  | versionCreated => [118, 101, 114, 115, 105, 111, 110, 45, 99, 114, 101, 97, 116, 101, 100]
  | versionRenamed => [118, 101, 114, 115, 105, 111, 110, 45, 114, 101, 110, 97, 109, 101, 100]
  | versionDeleted => [118, 101, 114, 115, 105, 111, 110, 45, 100, 101, 108, 101, 116, 101, 100]
  | compaction => [99, 111, 109, 112, 97, 99, 116, 105, 111, 110]
  | beforePublish => [98, 101, 102, 111, 114, 101, 45, 112, 117, 98, 108, 105, 115, 104]
  | afterRestore => [97, 102, 116, 101, 114, 45, 114, 101, 115, 116, 111, 114, 101]
  | beforeMigration =>
    [98, 101, 102, 111, 114, 101, 45, 109, 105, 103, 114, 97, 116, 105, 111, 110]

theorem asKebab_injective : Function.Injective asKebab := by
  intro a b h
  cases a <;> cases b <;> first | rfl | exact absurd h (by decide)

theorem zero_notMem_asKebab (event : TriggerEvent) : 0 ∉ event.asKebab := by
  cases event <;> decide

theorem asKebab_ne_every (event : TriggerEvent) :
    event.asKebab ≠ [101, 118, 101, 114, 121] := by
  cases event <;> decide

end Schema.TriggerEvent

namespace Server

open CrdtSync.Schema (Trigger TriggerEvent)
open Std (ExtTreeMap)

variable {σ : Type}

section Triggers

/-- A schema's declaration of automatic versions: when, under which template (its bytes), and how
many of them to keep, all of them if it does not say. -/
structure AutoVersion where
  trigger : Trigger
  name : Bytes
  keep : Option Nat

/-- The kebab name, a NUL and the template. -/
def triggerOrigin (event : TriggerEvent) (template : Bytes) : Bytes :=
  event.asKebab ++ 0 :: template

def scheduleOrigin (intervalMillis : Nat) (template : Bytes) : Bytes :=
  [101, 118, 101, 114, 121] ++ 0 :: (decimal intervalMillis ++ 0 :: template)

/-- The identity a trigger stamps on its captures. -/
def AutoVersion.origin (a : AutoVersion) : Bytes :=
  match a.trigger with
  | .on event => triggerOrigin event a.name
  | .every millis => scheduleOrigin millis a.name

/-- Fields without a NUL in the first are told apart at the first NUL. -/
theorem split_at_nul {a b rest rest' : Bytes} (ha : 0 ∉ a) (hb : 0 ∉ b)
    (h : a ++ 0 :: rest = b ++ 0 :: rest') : a = b ∧ rest = rest' := by
  induction a generalizing b with
  | nil =>
    cases b with
    | nil => exact ⟨rfl, (List.cons.inj h).2⟩
    | cons y b => exact absurd (List.mem_cons.mpr (.inl (List.cons.inj h).1)) hb
  | cons x a ih =>
    cases b with
    | nil => exact absurd (List.mem_cons.mpr (.inl (List.cons.inj h).1.symm)) ha
    | cons y b =>
      obtain ⟨hHead, hTail⟩ := List.cons.inj h
      obtain ⟨hEq, hRest⟩ := ih (fun hIn => ha (List.mem_cons_of_mem x hIn))
        (fun hIn => hb (List.mem_cons_of_mem y hIn)) hTail
      exact ⟨by rw [hHead, hEq], hRest⟩

theorem digit_bounds {c : Char} {n : Nat} (hDigit : c ∈ Nat.toDigits 10 n) :
    48 ≤ c.toNat ∧ c.toNat ≤ 57 := by
  have hIs := Nat.isDigit_of_mem_toDigits (by decide) (by decide) hDigit
  simpa [Char.isDigit, UInt32.le_iff_toNat_le] using hIs

theorem zero_notMem_decimal (n : Nat) : 0 ∉ decimal n := by
  intro hIn
  obtain ⟨c, hDigit, hZero⟩ := List.mem_map.mp hIn
  obtain ⟨hLow, hHigh⟩ := digit_bounds hDigit
  have hNat := congrArg UInt8.toNat hZero
  rw [UInt8.toNat_ofNat'] at hNat
  simp at hNat
  omega

theorem map_ofNat_decimal (n : Nat) :
    (decimal n).map (fun b => Char.ofNat b.toNat) = Nat.toDigits 10 n := by
  rw [decimal, List.map_map]
  refine (List.map_congr_left fun c hDigit => ?_).trans (List.map_id _)
  obtain ⟨hLow, hHigh⟩ := digit_bounds hDigit
  rw [Function.comp_apply, UInt8.toNat_ofNat', Nat.mod_eq_of_lt (by omega), Char.ofNat_toNat]
  rfl

theorem decimal_injective : Function.Injective decimal := by
  intro m n h
  have hDigits : Nat.toDigits 10 m = Nat.toDigits 10 n := by
    rw [← map_ofNat_decimal, h, map_ofNat_decimal]
  calc
    m = Nat.ofDigitChars 10 (Nat.toDigits 10 m) 0 := Nat.ofDigitChars_ten_toDigits.symm
    _ = Nat.ofDigitChars 10 (Nat.toDigits 10 n) 0 := by rw [hDigits]
    _ = n := Nat.ofDigitChars_ten_toDigits

/-- Triggers of one identity are the same. -/
theorem AutoVersion.origin_eq_iff {a b : AutoVersion} :
    a.origin = b.origin ↔ a.trigger = b.trigger ∧ a.name = b.name := by
  obtain ⟨trigger, name, keep⟩ := a
  obtain ⟨trigger', name', keep'⟩ := b
  constructor
  · intro h
    have hEvery : (0 : UInt8) ∉ [101, 118, 101, 114, 121] := by decide
    cases trigger with
    | on event =>
      cases trigger' with
      | on event' =>
        obtain ⟨hKebab, hName⟩ := split_at_nul event.zero_notMem_asKebab
          event'.zero_notMem_asKebab h
        exact ⟨congrArg Trigger.on (TriggerEvent.asKebab_injective hKebab), hName⟩
      | every millis =>
        obtain ⟨hKebab, -⟩ := split_at_nul event.zero_notMem_asKebab hEvery h
        exact absurd hKebab event.asKebab_ne_every
    | every millis =>
      cases trigger' with
      | on event =>
        obtain ⟨hKebab, -⟩ := split_at_nul hEvery event.zero_notMem_asKebab h
        exact absurd hKebab.symm event.asKebab_ne_every
      | every millis' =>
        obtain ⟨-, hRest⟩ := split_at_nul hEvery hEvery h
        obtain ⟨hMillis, hName⟩ := split_at_nul (zero_notMem_decimal millis)
          (zero_notMem_decimal millis') hRest
        exact ⟨congrArg Trigger.every (decimal_injective hMillis), hName⟩
  · rintro ⟨hTrigger, hName⟩
    obtain rfl : trigger = trigger' := hTrigger
    obtain rfl : name = name' := hName
    rfl

end Triggers

/-- The operations on one room's index. A publish and a restore capture through the first. -/
inductive IndexWrite (σ : Type)
  | create (name : Bytes) (origin : Option Bytes) (snapshot : Option (Snapshot σ))
  | retain (origin : Bytes) (keep : Nat)
  | rename (source target : Bytes)
  | delete (name : Bytes)

/-- A step of a hub as its versions see it: a call, a trigger's capture under the name its
template expands to, an index write that is refused after its file was renamed into place,
or a restart. -/
inductive VersionStep (σ : Type)
  | call (call : HubCall σ) (faults : Faults)
  | capture (room : RoomId) (name : Bytes) (a : AutoVersion) (created retained : Faults)
  | unsynced (room : RoomId) (write : IndexWrite σ)
  | restart

/-- The step that captures for a trigger, where its window keeps anything. -/
def AutoVersion.creation (a : AutoVersion) (room : RoomId) (name : Bytes) (faults : Faults) :
    List (VersionStep σ) :=
  if a.keep = some 0 then [] else [.call (.createAutoVersion room name a.origin) faults]

namespace StoredHub

variable {h h' : StoredHub σ} {room : RoomId}

/-- Capture a version for a trigger, then hold its window. A window of none captures
nothing and still prunes, and a capture that fails is not followed by a pruning. -/
def captureVersion (h : StoredHub σ) (created retained : Faults) (room : RoomId)
    (name origin : Bytes) (keep : Option Nat) : Outcome σ Unit :=
  let capture := if keep = some 0 then (.ok (), h)
    else settled (h.createAutoVersion created room name origin)
  match capture, keep with
  | (.error e, h), _ => (.error e, h)
  | (.ok (), h), none => (.ok (), h)
  | (.ok (), h), some keep => h.retainByOrigin retained room origin keep

def writeIndex (h : StoredHub σ) (faults : Faults) (room : RoomId) : IndexWrite σ → Outcome σ Unit
  | .create name origin snapshot =>
    settled (h.createVersionWith faults room name origin snapshot)
  | .retain origin keep => h.retainByOrigin faults room origin keep
  | .rename source target => settled (h.renameVersion faults room source target)
  | .delete name => settled (h.deleteVersion faults room name)

/-- The hub after a refused write of a room's index, whose file is nevertheless the new one. -/
def unsyncedWrite (h : StoredHub σ) (room : RoomId) (write : IndexWrite σ) : StoredHub σ :=
  let refused := (h.writeIndex (fun _ => true) room write).2
  let landed := (h.writeIndex (fun _ => false) room write).2
  refused.write room fun l => { l with versions := (landed.roomLog room).versions }

def beforePruning (h : StoredHub σ) (created : Faults) (room : RoomId) (name origin : Bytes)
    (keep : Option Nat) : StoredHub σ :=
  if keep = some 0 then h else (h.createAutoVersion created room name origin).2

section Runs

variable [Folds σ]

def versionStep (h : StoredHub σ) : VersionStep σ → StoredHub σ
  | .call call faults => (h.perform faults call).2
  | .capture room name a created retained =>
    (h.captureVersion created retained room name a.origin a.keep).2
  | .unsynced room write => h.unsyncedWrite room write
  | .restart => h.restart

def versionRun (h : StoredHub σ) (steps : List (VersionStep σ)) : StoredHub σ :=
  steps.foldl versionStep h

/-- The version came to stand in the room at step `t` of a run, and stood ever since. -/
def CapturedAt (h : StoredHub σ) (steps : List (VersionStep σ)) (room : RoomId) (v : Version σ)
    (t : Nat) : Prop :=
  t < steps.length ∧ ¬(h.versionRun (steps.take t)).indexes.Holds room v ∧
    ∀ later, t < later → later ≤ steps.length →
      (h.versionRun (steps.take later)).indexes.Holds room v

/-- What a pruning of an origin leaves of its versions at the end of a run: `standing` lists
them, in the order of the steps that captured them, and the last `keep` of it stay. -/
structure Retained (h : StoredHub σ) (steps : List (VersionStep σ)) (room : RoomId)
    (origin : Bytes) (keep : Option Nat) (after : StoredHub σ)
    (standing : List (Bytes × Version σ)) (times : List Nat) : Prop where
  stands : ∀ (name : Bytes) (v : Version σ), (name, v) ∈ standing ↔
    ((h.versionRun steps).versions room)[name]? = some v ∧ v.origin = some origin
  captured : List.Forall₂ (fun entry t => h.CapturedAt steps room entry.2 t) standing times
  order : times.Pairwise (· < ·)
  kept : ∀ (name : Bytes) (v : Version σ), (after.versions room)[name]? = some v ∧ v.origin = some origin ↔
    (name, v) ∈ standing.drop (keep.elim 0 (standing.length - ·))

end Runs

section Selection

/-- The captures of an origin, oldest first. -/
def byOrdinal (index : ExtTreeMap Bytes (Version σ) compare) (origin : Bytes) :
    List (Bytes × Version σ) :=
  (index.toList.filter fun entry => entry.2.origin = some origin).mergeSort
    fun a b => a.2.ordinal ≤ b.2.ordinal

variable {index : ExtTreeMap Bytes (Version σ) compare} {origin : Bytes}

theorem doomed_eq (index : ExtTreeMap Bytes (Version σ) compare) (origin : Bytes) (keep : Nat) :
    doomed index origin keep =
      ((byOrdinal index origin).take ((byOrdinal index origin).length - keep)).map Prod.fst := by
  unfold doomed byOrdinal
  rw [List.length_mergeSort]

theorem mem_byOrdinal {name : Bytes} {v : Version σ} :
    (name, v) ∈ byOrdinal index origin ↔ index[name]? = some v ∧ v.origin = some origin := by
  rw [byOrdinal, List.mem_mergeSort, List.mem_filter, Lib.mem_toList_iff]
  simp

theorem pairwise_names_byOrdinal (index : ExtTreeMap Bytes (Version σ) compare) (origin : Bytes) :
    (byOrdinal index origin).Pairwise fun a b => a.1 ≠ b.1 := by
  have hFiltered := (Lib.pairwise_ne_entries index).filter
    fun entry => decide (entry.2.origin = some origin)
  exact ((List.mergeSort_perm ..).pairwise_iff fun hNe => Ne.symm hNe).mpr hFiltered

theorem pairwise_ordinal_byOrdinal {bound : Nat} (h : Apart bound index) (origin : Bytes) :
    (byOrdinal index origin).Pairwise fun a b => a.2.ordinal < b.2.ordinal := by
  have hSorted : (byOrdinal index origin).Pairwise fun a b => a.2.ordinal ≤ b.2.ordinal := by
    have hLe : (byOrdinal index origin).Pairwise fun a b =>
        decide (a.2.ordinal ≤ b.2.ordinal) = true :=
      List.pairwise_mergeSort (fun a b c => by simpa using Nat.le_trans)
        (fun a b => by simpa using Nat.le_total _ _) _
    exact hLe.imp fun hLe => by simpa using hLe
  refine (hSorted.and (pairwise_names_byOrdinal index origin)).imp_of_mem ?_
  intro a b ha hb hPair
  refine lt_of_le_of_ne hPair.1 fun hSame => hPair.2 ?_
  exact h.distinct a.1 b.1 a.2 b.2 (mem_byOrdinal.mp ha).1 (mem_byOrdinal.mp hb).1 hSame

theorem mem_spared {name : Bytes} {v : Version σ} (keep : Nat) :
    ((doomed index origin keep).foldl ExtTreeMap.erase index)[name]? = some v ∧
        v.origin = some origin ↔
      (name, v) ∈ (byOrdinal index origin).drop ((byOrdinal index origin).length - keep) := by
  have hNames := pairwise_names_byOrdinal index origin
  rw [getElem?_foldl_erase, doomed_eq]
  generalize (byOrdinal index origin).length - keep = n
  have hMem : (name, v) ∈ byOrdinal index origin ↔ index[name]? = some v ∧ v.origin = some origin :=
    mem_byOrdinal
  generalize byOrdinal index origin = captures at hNames hMem ⊢
  rw [← List.take_append_drop n captures, List.pairwise_append] at hNames
  rw [← List.take_append_drop n captures, List.mem_append] at hMem
  split
  next hDoomed =>
    obtain ⟨entry, hTaken, rfl⟩ := List.mem_map.mp hDoomed
    exact iff_of_false (fun hHeld => by cases hHeld.1) fun hKept =>
      hNames.2.2 entry hTaken (entry.1, v) hKept rfl
  next hSpared =>
    have hNotTaken : (name, v) ∉ captures.take n := fun hTaken =>
      hSpared (List.mem_map.mpr ⟨_, hTaken, rfl⟩)
    rw [← hMem, or_iff_right hNotTaken]

end Selection

section Writes

/-- Retention prunes the doomed in one write, or leaves the hub as it was. -/
theorem retainByOrigin_cases (h : StoredHub σ) (faults : Faults) (room : RoomId) (origin : Bytes)
    (keep : Nat) :
    doomed (h.versions room) origin keep = [] ∧
        h.retainByOrigin faults room origin keep = (.ok (), h) ∨
      h.retainByOrigin faults room origin keep = (.error .store, h) ∨
        ∃ h', h.retainByOrigin faults room origin keep = (.ok (), h') ∧
          h'.indexes = h.indexes.put room
            ((doomed (h.versions room) origin keep).foldl ExtTreeMap.erase (h.versions room)) := by
  unfold retainByOrigin
  dsimp only
  generalize doomed (h.versions room) origin keep = names
  cases names with
  | nil => exact .inl ⟨rfl, rfl⟩
  | cons name names =>
    rw [if_neg (by simp)]
    obtain ⟨-, hCall⟩ | ⟨-, h', hCall, hPut⟩ := h.persistVersions_cases faults room
      ((name :: names).foldl ExtTreeMap.erase (h.versions room))
    · exact .inr (.inl (by rw [hCall]))
    · exact .inr (.inr ⟨h', by rw [hCall], hPut⟩)

/-- Retention brings no version in. -/
theorem holds_of_retainByOrigin {faults : Faults} {origin : Bytes} {keep : Nat} {other : RoomId}
    {v : Version σ} (hHolds : (h.retainByOrigin faults room origin keep).2.indexes.Holds other v) :
    h.indexes.Holds other v := by
  obtain ⟨-, hEq⟩ | hEq | ⟨h', hEq, hPut⟩ := h.retainByOrigin_cases faults room origin keep
  · rwa [hEq] at hHolds
  · rwa [hEq] at hHolds
  · rw [hEq, hPut] at hHolds
    obtain hBefore | ⟨rfl, name, hEntry⟩ := (Indexes.Writes.landed).holds hHolds
    · exact hBefore
    · rw [getElem?_foldl_erase] at hEntry
      split at hEntry
      · cases hEntry
      · exact ⟨name, .inl hEntry⟩

/-- Every version outside the origin is spared, in whatever room and whether or not the
pruning was refused. -/
theorem spared_retainByOrigin {faults : Faults} {origin : Bytes} {keep : Nat} {other : RoomId}
    {name : Bytes} {v : Version σ} (hHeld : (h.versions other)[name]? = some v)
    (hOutside : other = room → v.origin ≠ some origin) :
    ((h.retainByOrigin faults room origin keep).2.versions other)[name]? = some v := by
  obtain ⟨-, hEq⟩ | hEq | ⟨h', hEq, hPut⟩ := h.retainByOrigin_cases faults room origin keep
  · rwa [hEq]
  · rwa [hEq]
  · have hVersions : h'.versions = Function.update h.versions room _ := congrArg Indexes.held hPut
    rw [hEq, hVersions]
    by_cases hOther : other = room
    · subst hOther
      have hSpared : name ∉ doomed (h.versions other) origin keep := by
        intro hDoomed
        obtain ⟨v', hHeld', hOrigin⟩ := mem_doomed_origin hDoomed
        obtain rfl := Option.some.inj (hHeld.symm.trans hHeld')
        exact hOutside rfl hOrigin
      rw [Function.update_self, getElem?_foldl_erase, if_neg hSpared]
      exact hHeld
    · rw [Function.update_of_ne hOther]
      exact hHeld

/-- Where the pruning goes through, the doomed are gone and the rest stands. -/
theorem versions_of_retainByOrigin {faults : Faults} {origin : Bytes} {keep : Nat}
    (hOk : (h.retainByOrigin faults room origin keep).1 = .ok ()) :
    (h.retainByOrigin faults room origin keep).2.versions room =
      (doomed (h.versions room) origin keep).foldl ExtTreeMap.erase (h.versions room) := by
  obtain ⟨hNone, hEq⟩ | hEq | ⟨h', hEq, hPut⟩ := h.retainByOrigin_cases faults room origin keep
  · rw [hEq, hNone]
    rfl
  · rw [hEq] at hOk
    cases hOk
  · have hVersions : h'.versions = Function.update h.versions room _ := congrArg Indexes.held hPut
    rw [hEq, hVersions]
    exact Function.update_self ..

theorem Rewrites.settled {α : Type} {op : Faults → Outcome σ α} (hOp : h.Rewrites room op) :
    h.Rewrites room fun faults => StoredHub.settled (op faults) := by
  obtain ⟨a, hSame⟩ | ⟨i, index, hHeld, hStep, hCases⟩ := hOp
  · exact .inl ⟨(), fun faults => congrArg StoredHub.settled (hSame faults)⟩
  · refine .inr ⟨i, index, hHeld, hStep, fun faults => ?_⟩
    obtain ⟨hFault, h', hEq, hIndexes⟩ | ⟨hFault, a, h', hEq, hIndexes⟩ := hCases faults
    · exact .inl ⟨hFault, h', congrArg StoredHub.settled hEq, hIndexes⟩
    · exact .inr ⟨hFault, (), h', congrArg StoredHub.settled hEq, hIndexes⟩

theorem rewrites_writeIndex (h : StoredHub σ) (room : RoomId) (write : IndexWrite σ) :
    h.Rewrites room fun faults => h.writeIndex faults room write := by
  cases write with
  | create name origin snapshot => exact (h.rewrites_createVersionWith room name origin snapshot).settled
  | retain origin keep => exact h.rewrites_retainByOrigin room origin keep
  | rename source target => exact (h.rewrites_renameVersion room source target).settled
  | delete name => exact (h.rewrites_deleteVersion room name).settled

theorem indexes_writeVersions (h : StoredHub σ) (room : RoomId)
    (index : ExtTreeMap Bytes (Version σ) compare) :
    (h.write room fun l => { l with versions := index }).indexes =
      { h.indexes with stored := Function.update h.indexes.stored room index } := by
  have hStored : ∀ other, ((h.write room fun l => { l with versions := index }).roomLog
      other).versions = Function.update h.indexes.stored room index other := by
    intro other
    rw [roomLog_write]
    by_cases hOther : other = room
    · rw [if_pos hOther, hOther, Function.update_self]
    · rw [if_neg hOther, Function.update_of_ne hOther]
      rfl
  simp only [indexes, hStored]
  rfl

theorem step_unsyncedWrite (h : StoredHub σ) (room : RoomId) (write : IndexWrite σ) :
    h.indexes.Step (h.unsyncedWrite room write).indexes := by
  unfold unsyncedWrite
  dsimp only
  rw [indexes_writeVersions]
  obtain ⟨a, hSame⟩ | ⟨i, index, -, hStep, hCases⟩ := h.rewrites_writeIndex room write
  · have hStored : Function.update h.indexes.stored room (h.roomLog room).versions =
        h.indexes.stored := Function.update_eq_self room h.indexes.stored
    beta_reduce at hSame
    rw [hSame, hSame, hStored]
    exact .same
  · obtain ⟨-, refused, hRefused, hIndexes⟩ | ⟨hFault, -⟩ := hCases fun _ => true
    · obtain ⟨hFault, -⟩ | ⟨-, a, landed, hLanded, hPut⟩ := hCases fun _ => false
      · cases hFault
      · have hIndex : (landed.roomLog room).versions = index := by
          have hStored : (landed.roomLog room).versions = (i.put room index).stored room :=
            congrArg (fun j => Indexes.stored j room) hPut
          exact hStored.trans (Function.update_self ..)
        beta_reduce at hRefused hLanded
        rw [hRefused, hLanded, hIndexes, hIndex]
        exact hStep _ .unsynced
    · cases hFault

theorem captureVersion_cases (h : StoredHub σ) (created retained : Faults) (room : RoomId)
    (name origin : Bytes) (keep : Option Nat) :
    (∃ e, h.captureVersion created retained room name origin keep =
        (.error e, h.beforePruning created room name origin keep)) ∨
      keep = none ∧ h.captureVersion created retained room name origin keep =
        (.ok (), h.beforePruning created room name origin keep) ∨
      ∃ window, keep = some window ∧ h.captureVersion created retained room name origin keep =
        (h.beforePruning created room name origin keep).retainByOrigin retained room origin window := by
  unfold captureVersion beforePruning
  dsimp only
  by_cases hZero : keep = some 0
  · subst hZero
    exact .inr (.inr ⟨0, rfl, rfl⟩)
  · rw [if_neg hZero, if_neg hZero]
    obtain ⟨result, h₁⟩ := h.createAutoVersion created room name origin
    cases result with
    | error e => exact .inl ⟨e, rfl⟩
    | ok taken =>
      cases keep with
      | none => exact .inr (.inl ⟨rfl, rfl⟩)
      | some window => exact .inr (.inr ⟨window, rfl, rfl⟩)

end Writes

section Order

/-- A step leaves ordinals in order, and what it brings in under an origin takes the next. -/
structure Advances (i i' : Indexes σ) : Prop where
  ordered : i.Ordered → i'.Ordered
  entering : ∀ (room : RoomId) (v : Version σ), i'.Holds room v → v.origin ≠ none →
    i.Holds room v ∨ v.ordinal = i.ordinal

theorem Advances.of_step {i i' : Indexes σ} (hStep : i.Step i') : Advances i i' where
  ordered := hStep.ordered
  entering _ _ := hStep.entering

theorem Advances.shrink {i i' i'' : Indexes σ} (hFirst : Advances i i') (hSecond : i'.Step i'')
    (hShrinks : ∀ room v, i''.Holds room v → i'.Holds room v) : Advances i i'' where
  ordered hOrdered := hSecond.ordered (hFirst.ordered hOrdered)
  entering room v hHolds := hFirst.entering room v (hShrinks room v hHolds)

theorem advances_captureVersion (h : StoredHub σ) (created retained : Faults) (room : RoomId)
    (name origin : Bytes) (keep : Option Nat) :
    Advances h.indexes (h.captureVersion created retained room name origin keep).2.indexes := by
  have hBefore : Advances h.indexes (h.beforePruning created room name origin keep).indexes := by
    unfold beforePruning
    split
    · exact .of_step .same
    · exact .of_step ((h.rewrites_createVersionWith room name (some origin) none).step created)
  obtain ⟨e, hEq⟩ | ⟨-, hEq⟩ | ⟨window, -, hEq⟩ :=
    h.captureVersion_cases created retained room name origin keep
  · rwa [hEq]
  · rwa [hEq]
  · rw [hEq]
    exact hBefore.shrink ((rewrites_retainByOrigin _ room origin window).step retained)
      fun _ _ => holds_of_retainByOrigin

variable [Folds σ]

theorem advances_versionStep (h : StoredHub σ) (step : VersionStep σ) :
    Advances h.indexes (h.versionStep step).indexes := by
  cases step with
  | call call faults => exact .of_step (h.step_perform faults call)
  | capture room name a created retained => exact h.advances_captureVersion ..
  | unsynced room write => exact .of_step (h.step_unsyncedWrite room write)
  | restart => exact .of_step h.step_restart

theorem versionRun_append (h : StoredHub σ) (steps steps' : List (VersionStep σ)) :
    h.versionRun (steps ++ steps') = (h.versionRun steps).versionRun steps' := List.foldl_append

theorem ordered_versionRun (hOrdered : h.indexes.Ordered) (steps : List (VersionStep σ)) :
    (h.versionRun steps).indexes.Ordered := by
  induction steps generalizing h with
  | nil => exact hOrdered
  | cons step steps ih => exact ih ((h.advances_versionStep step).ordered hOrdered)

theorem CapturedAt.ordinal {steps : List (VersionStep σ)} {v : Version σ} {t : Nat}
    (hAt : h.CapturedAt steps room v t) (hOrigin : v.origin ≠ none) :
    v.ordinal = (h.versionRun (steps.take t)).versionOrdinal := by
  obtain ⟨hLt, hBefore, hSince⟩ := hAt
  have hNext := hSince (t + 1) (Nat.lt_succ_self t) hLt
  rw [List.take_succ_eq_append_getElem hLt, versionRun_append] at hNext
  obtain hHeld | hOrdinal :=
    ((h.versionRun (steps.take t)).advances_versionStep steps[t]).entering room v hNext hOrigin
  · exact absurd hHeld hBefore
  · exact hOrdinal

/-- Of two captures the one with the smaller ordinal was made first. -/
theorem CapturedAt.lt (hOrdered : h.indexes.Ordered) {steps : List (VersionStep σ)}
    {v w : Version σ} {s t : Nat} (hv : h.CapturedAt steps room v s)
    (hw : h.CapturedAt steps room w t) (hOrigin : v.origin ≠ none) (hOrigin' : w.origin ≠ none)
    (hLt : v.ordinal < w.ordinal) : s < t := by
  by_contra hNot
  rw [hv.ordinal hOrigin, hw.ordinal hOrigin'] at hLt
  obtain hSame | hLater := eq_or_lt_of_le (not_lt.mp hNot)
  · rw [hSame] at hLt
    exact absurd hLt (lt_irrefl _)
  · -- the later capture stood when the ordinal of the earlier was the next
    obtain ⟨name, hHeld | hStored⟩ := hw.2.2 s hLater hv.1.le
    · have hBelow := ((ordered_versionRun hOrdered (steps.take s)).held room).below name w hHeld
      rw [hw.ordinal hOrigin'] at hBelow
      exact absurd hBelow hLt.not_gt
    · have hBelow := ((ordered_versionRun hOrdered (steps.take s)).stored room).below name w hStored
      rw [hw.ordinal hOrigin'] at hBelow
      exact absurd hBelow hLt.not_gt

theorem exists_capturedAt {steps : List (VersionStep σ)} {v : Version σ}
    (hStart : ¬h.indexes.Holds room v) (hEnd : (h.versionRun steps).indexes.Holds room v) :
    ∃ t, h.CapturedAt steps room v t := by
  induction steps using List.reverseRecOn with
  | nil => exact absurd hEnd hStart
  | append_singleton steps step ih =>
    have hTake : ∀ later, later ≤ steps.length →
        (steps ++ [step]).take later = steps.take later := fun later hLe =>
      List.take_append_of_le_length hLe
    by_cases hBefore : (h.versionRun steps).indexes.Holds room v
    · obtain ⟨t, hLt, hNot, hSince⟩ := ih hBefore
      refine ⟨t, by rw [List.length_append]; omega, by rwa [hTake t hLt.le], ?_⟩
      intro later hLater hLe
      obtain hLast | hInner := Nat.eq_or_lt_of_le hLe
      · rwa [hLast, List.take_length]
      · rw [List.length_append, List.length_singleton] at hInner
        rw [hTake later (by omega)]
        exact hSince later hLater (by omega)
    · refine ⟨steps.length, by simp, by rwa [hTake _ le_rfl, List.take_length], ?_⟩
      intro later hLater hLe
      rw [List.length_append, List.length_singleton] at hLe
      obtain rfl : later = steps.length + 1 := by omega
      rwa [List.take_of_length_le (by simp)]

theorem exists_increasing {α : Type} {R : α → Nat → Prop} {l : List α}
    (hSome : ∀ a ∈ l, ∃ t, R a t)
    (hIncreasing : l.Pairwise fun a b => ∀ s t, R a s → R b t → s < t) :
    ∃ times, List.Forall₂ R l times ∧ times.Pairwise (· < ·) ∧ ∀ t ∈ times, ∃ a ∈ l, R a t := by
  induction l with
  | nil => exact ⟨[], .nil, .nil, fun _ hMem => absurd hMem List.not_mem_nil⟩
  | cons a l ih =>
    obtain ⟨hHead, hTail⟩ := List.pairwise_cons.mp hIncreasing
    obtain ⟨t, ht⟩ := hSome a List.mem_cons_self
    obtain ⟨times, hAll, hOrder, hFrom⟩ := ih (fun b hb => hSome b (List.mem_cons_of_mem a hb)) hTail
    refine ⟨t :: times, .cons ht hAll, List.pairwise_cons.mpr ⟨?_, hOrder⟩, ?_⟩
    · intro t' hMem
      obtain ⟨b, hb, hTime⟩ := hFrom t' hMem
      exact hHead b hb t t' ht hTime
    · intro t' hMem
      obtain rfl | hMem := List.mem_cons.mp hMem
      · exact ⟨a, List.mem_cons_self, ht⟩
      · obtain ⟨b, hb, hTime⟩ := hFrom t' hMem
        exact ⟨b, List.mem_cons_of_mem a hb, hTime⟩

end Order

section Captures

variable [Folds σ]

theorem versionRun_creation (h : StoredHub σ) (steps : List (VersionStep σ)) (a : AutoVersion)
    (room : RoomId) (name : Bytes) (faults : Faults) :
    h.versionRun (steps ++ a.creation room name faults) =
      (h.versionRun steps).beforePruning faults room name a.origin a.keep := by
  rw [versionRun_append, AutoVersion.creation, beforePruning]
  split <;> rfl

theorem exists_retained {steps : List (VersionStep σ)} (hOrdered : h.indexes.Ordered)
    (hStart : ∀ v, ¬h.indexes.Holds room v) {origin : Bytes} {keep : Option Nat}
    {after : StoredHub σ}
    (hKept : ∀ (name : Bytes) (v : Version σ),
      (after.versions room)[name]? = some v ∧ v.origin = some origin ↔
        (name, v) ∈ (byOrdinal ((h.versionRun steps).versions room) origin).drop (keep.elim 0
          ((byOrdinal ((h.versionRun steps).versions room) origin).length - ·))) :
    ∃ standing times, h.Retained steps room origin keep after standing times := by
  have hApart := (ordered_versionRun hOrdered steps).held room
  have hOrigin : ∀ entry ∈ byOrdinal ((h.versionRun steps).versions room) origin,
      entry.2.origin ≠ none := by
    intro entry hEntry
    rw [(mem_byOrdinal.mp hEntry).2]
    simp
  obtain ⟨times, hCaptured, hOrder, -⟩ := exists_increasing
    (R := fun entry t => h.CapturedAt steps room entry.2 t)
    (l := byOrdinal ((h.versionRun steps).versions room) origin)
    (fun entry hEntry => exists_capturedAt (hStart entry.2)
      ⟨entry.1, .inl (mem_byOrdinal.mp hEntry).1⟩)
    ((pairwise_ordinal_byOrdinal hApart origin).imp_of_mem fun ha hb hLt s t hs ht =>
      hs.lt hOrdered ht (hOrigin _ ha) (hOrigin _ hb) hLt)
  exact ⟨_, times, fun name v => mem_byOrdinal, hCaptured, hOrder, hKept⟩

/-- After any run, a trigger's capture leaves of its own versions the last its window keeps, in
the order they were captured in. A version of another room, of another trigger or of none
stands as it did, whatever the store refuses; and an index write that is refused leaves the
versions as they were. -/
theorem capture_keeps_newest (server : ClientId) (content : σ) (threshold : Nat)
    (steps : List (VersionStep σ)) (room : RoomId) (name : Bytes) (a : AutoVersion)
    (created retained : Faults) :
    let start := new server content threshold
    let hub := start.versionRun steps
    let before := start.versionRun (steps ++ a.creation room name created)
    let capture := hub.captureVersion created retained room name a.origin a.keep
    (capture.1 = .ok () → ∃ standing times, start.Retained (steps ++ a.creation room name created)
        room a.origin a.keep capture.2 standing times) ∧
      (∀ (other : RoomId) (version : Bytes) (v : Version σ),
        (before.versions other)[version]? = some v →
          (other = room → v.origin = none ∨ ∃ b : AutoVersion, v.origin = some b.origin ∧
            ¬(b.trigger = a.trigger ∧ b.name = a.name)) →
          (capture.2.versions other)[version]? = some v) ∧
        (∀ e, capture.1 = .error e → capture.2.versions = before.versions) ∧
          ∀ (other : RoomId) (write : IndexWrite σ) (faults : Faults) (e : IoError),
            (hub.writeIndex faults other write).1 = .error e →
              (hub.writeIndex faults other write).2.versions = hub.versions := by
  intro start hub before capture
  have hBefore : before = hub.beforePruning created room name a.origin a.keep :=
    start.versionRun_creation steps a room name created
  have hCases := hub.captureVersion_cases created retained room name a.origin a.keep
  rw [← hBefore] at hCases
  have hStart : ∀ v, ¬start.indexes.Holds room v := by
    rintro v ⟨version, hHeld | hStored⟩
    · simp [start, indexes, new] at hHeld
    · simp [start, indexes, new, roomLog, RoomLog.empty] at hStored
  have hOrdered : start.indexes.Ordered :=
    ⟨fun _ => .empty, fun other => by simpa [start, indexes, new, roomLog, RoomLog.empty] using .empty⟩
  refine ⟨?_, ?_, ?_, ?_⟩
  · intro hOk
    refine exists_retained hOrdered hStart fun version v => ?_
    change (capture.2.versions room)[version]? = some v ∧ _ ↔
      (version, v) ∈ (byOrdinal (before.versions room) a.origin).drop _
    obtain ⟨e, hEq⟩ | ⟨hKeep, hEq⟩ | ⟨window, hKeep, hEq⟩ := hCases
    · rw [show capture = _ from hEq] at hOk
      cases hOk
    · rw [show capture = _ from hEq, hKeep]
      exact mem_byOrdinal.symm
    · rw [show capture = _ from hEq] at hOk ⊢
      rw [versions_of_retainByOrigin hOk, hKeep]
      exact mem_spared window
  · intro other version v hHeld hOutside
    obtain ⟨e, hEq⟩ | ⟨-, hEq⟩ | ⟨window, -, hEq⟩ := hCases
    · rwa [show capture = _ from hEq]
    · rwa [show capture = _ from hEq]
    · rw [show capture = _ from hEq]
      refine spared_retainByOrigin hHeld fun hOther hSame => ?_
      obtain hNone | ⟨b, hOrigin, hNot⟩ := hOutside hOther
      · rw [hNone] at hSame
        cases hSame
      · rw [hOrigin] at hSame
        exact hNot (AutoVersion.origin_eq_iff.mp (Option.some.inj hSame))
  · intro e hError
    obtain ⟨e', hEq⟩ | ⟨-, hEq⟩ | ⟨window, -, hEq⟩ := hCases
    · rw [show capture = _ from hEq]
    · rw [show capture = _ from hEq]
    · rw [show capture = _ from hEq] at hError ⊢
      exact (rewrites_retainByOrigin before room a.origin window).versions_of_error hError
  · intro other write faults e hError
    exact (hub.rewrites_writeIndex other write).versions_of_error hError

end Captures

end StoredHub

end Server

end CrdtSync
