import CrdtSync.Lib.OrderedMap

/-!
# Files that survive a crash

A directory binds names to files. A power loss may undo, name by name, every change since the
directory was last synced, and leaves of a file that was not synced any bytes at all. What is
written to a temporary file, synced and renamed into place is then bound to its name whole or not
at all, wherever the writing stops.
-/

namespace CrdtSync.Lib

open Std (ExtTreeMap)

structure File (B : Type) where
  content : B
  synced : Bool
deriving DecidableEq

abbrev Files (N B : Type) [Ord N] := ExtTreeMap N (File B) compare

/-- A directory, with what it was at each change since it was last synced. -/
structure Directory (N B : Type) [Ord N] where
  now : Files N B
  past : List (Files N B)

inductive FileOp (N B : Type)
  | create (name : N)
  | write (name : N) (content : B)
  | syncFile (name : N)
  | rename (old new : N)
  | syncDir

/-- Fill a temporary file, sync it, rename it into place and sync the directory. -/
def atomicWrite {N B : Type} (tmp name : N) (content : B) : List (FileOp N B) :=
  [.create tmp, .write tmp content, .syncFile tmp, .rename tmp name, .syncDir]

/-- What is done of an operation that is cut short: of a write, some of its bytes. -/
def FileOp.cutShort {N B : Type} (part : B → B) : FileOp N B → List (FileOp N B)
  | .write name content => [.write name (part content)]
  | _ => []

/-- The operations done when the `k`-th is cut short. -/
def cutAt {N B : Type} (part : B → B) (k : Nat) (ops : List (FileOp N B)) : List (FileOp N B) :=
  ops.take k ++ ops[k]?.toList.flatMap (FileOp.cutShort part)

theorem cutAt_of_length_le {N B : Type} (part : B → B) {k : Nat} {ops : List (FileOp N B)}
    (h : ops.length ≤ k) : cutAt part k ops = ops := by
  simp [cutAt, List.take_of_length_le h, List.getElem?_eq_none h]

namespace Directory

variable {N B : Type} [Ord N] [Std.TransOrd N]
variable {d d' e : Directory N B} {touched : List N} {tmp name : N} {content : B} {P Q : B → Prop}

/-- All that a power loss may find a name bound in. -/
def states (d : Directory N B) : List (Files N B) := d.now :: d.past

def change (d : Directory N B) (files : Files N B) : Directory N B := ⟨files, d.states⟩

/-- What a power loss can leave of a directory. -/
def Survives (d d' : Directory N B) : Prop :=
  d'.past = [] ∧ ∀ name : N, ∃ files ∈ d.states,
    files[name]? = none ∧ d'.now[name]? = none ∨
      ∃ file content, files[name]? = some file ∧ d'.now[name]? = some ⟨content, true⟩ ∧
        (file.synced = true → content = file.content)

/-- Whatever survives, the name is bound to these bytes. -/
def Keeps (d : Directory N B) (name : N) (content : B) : Prop :=
  ∀ files ∈ d.states, files[name]? = some ⟨content, true⟩

/-- Whatever survives, the name is bound to such bytes, if it is bound. -/
def Only (d : Directory N B) (name : N) (P : B → Prop) : Prop :=
  ∀ files ∈ d.states, ∀ file, files[name]? = some file → file.synced = true ∧ P file.content

/-- The names but those touched are bound as they were. -/
structure AgreesOff (touched : List N) (d d' : Directory N B) : Prop where
  now : ∀ name, name ∉ touched → d'.now[name]? = d.now[name]?
  states : ∀ name, name ∉ touched → ∀ files ∈ d'.states,
    ∃ old ∈ d.states, files[name]? = old[name]?

theorem Only.mono (h : d.Only name P) (hMono : ∀ content, P content → Q content) : d.Only name Q :=
  fun files hFiles file hFile =>
    ⟨(h files hFiles file hFile).1, hMono _ (h files hFiles file hFile).2⟩

theorem Keeps.survives (h : d.Keeps name content) (hSurvives : d.Survives d') :
    d'.Keeps name content := by
  intro files hFiles
  rw [states, hSurvives.1, List.mem_singleton] at hFiles
  obtain ⟨old, hOld, ⟨hNone, -⟩ | ⟨file, left, hFile, hLeft, hSynced⟩⟩ := hSurvives.2 name
  · rw [h old hOld] at hNone
    cases hNone
  · rw [h old hOld] at hFile
    cases hFile
    rw [hFiles, hLeft, hSynced rfl]

theorem Only.survives (h : d.Only name P) (hSurvives : d.Survives d') : d'.Only name P := by
  intro files hFiles file hFile
  rw [states, hSurvives.1, List.mem_singleton] at hFiles
  subst hFiles
  obtain ⟨old, hOld, ⟨-, hNone⟩ | ⟨was, left, hWas, hLeft, hSynced⟩⟩ := hSurvives.2 name
  · rw [hNone] at hFile
    cases hFile
  · rw [hLeft] at hFile
    cases hFile
    have hHeld := h old hOld was hWas
    exact ⟨rfl, hSynced hHeld.1 ▸ hHeld.2⟩

section AgreesOff

theorem AgreesOff.refl (touched : List N) (d : Directory N B) : AgreesOff touched d d :=
  ⟨fun _ _ => rfl, fun _ _ files hFiles => ⟨files, hFiles, rfl⟩⟩

theorem AgreesOff.trans (h : AgreesOff touched d d') (h' : AgreesOff touched d' e) :
    AgreesOff touched d e where
  now name hName := (h'.now name hName).trans (h.now name hName)
  states name hName files hFiles := by
    obtain ⟨mid, hMid, hSame⟩ := h'.states name hName files hFiles
    obtain ⟨old, hOld, hSame'⟩ := h.states name hName mid hMid
    exact ⟨old, hOld, hSame.trans hSame'⟩

theorem AgreesOff.subset {more : List N} (h : AgreesOff touched d d') (hSub : touched ⊆ more) :
    AgreesOff more d d' :=
  ⟨fun name hName => h.now name fun hIn => hName (hSub hIn),
    fun name hName => h.states name fun hIn => hName (hSub hIn)⟩

theorem agreesOff_change {files : Files N B}
    (h : ∀ name, name ∉ touched → files[name]? = d.now[name]?) :
    AgreesOff touched d (d.change files) where
  now := h
  states name hName old hOld := by
    rcases List.mem_cons.mp hOld with rfl | hOld
    · exact ⟨d.now, List.mem_cons_self, h name hName⟩
    · exact ⟨old, hOld, rfl⟩

theorem agreesOff_synced (touched : List N) (d : Directory N B) :
    AgreesOff touched d ⟨d.now, []⟩ where
  now _ _ := rfl
  states _ _ files hFiles := ⟨files, List.mem_cons.mpr (.inl (List.mem_singleton.mp hFiles)), rfl⟩

theorem Keeps.agreesOff (h : d.Keeps name content) (hAgrees : AgreesOff touched d d')
    (hName : name ∉ touched) : d'.Keeps name content := by
  intro files hFiles
  obtain ⟨old, hOld, hSame⟩ := hAgrees.states name hName files hFiles
  rw [hSame, h old hOld]

theorem Only.agreesOff (h : d.Only name P) (hAgrees : AgreesOff touched d d')
    (hName : name ∉ touched) : d'.Only name P := by
  intro files hFiles file hFile
  obtain ⟨old, hOld, hSame⟩ := hAgrees.states name hName files hFiles
  exact h old hOld file (hSame ▸ hFile)

end AgreesOff

variable [Inhabited B]

/-- Syncing or renaming a file that is not there is refused. -/
def apply (d : Directory N B) : FileOp N B → Directory N B
  | .create name => d.change (d.now.insert name ⟨default, false⟩)
  | .write name content => d.change (d.now.insert name ⟨content, false⟩)
  | .syncFile name =>
    match d.now[name]? with
    | some file => d.change (d.now.insert name { file with synced := true })
    | none => d
  | .rename old new =>
    match d.now[old]? with
    | some file => d.change ((d.now.erase old).insert new file)
    | none => d
  | .syncDir => ⟨d.now, []⟩

def run (d : Directory N B) (ops : List (FileOp N B)) : Directory N B := ops.foldl apply d

section Write

variable [DecidableEq N] [Std.LawfulEqOrd N]

omit [Inhabited B] in
theorem agreesOff_insert (d : Directory N B) (tmp : N) (file : File B) :
    AgreesOff [tmp] d (d.change (d.now.insert tmp file)) :=
  agreesOff_change fun name hName => by
    rw [getElem?_insert_ite, if_neg fun hSame => hName (List.mem_singleton.mpr hSame)]

/-- Before the temporary file is renamed no other name is touched. -/
theorem agreesOff_prepare (d : Directory N B) (tmp : N) (content : B) :
    AgreesOff [tmp] d (d.run [.create tmp]) ∧
      AgreesOff [tmp] d (d.run [.create tmp, .write tmp content]) ∧
      AgreesOff [tmp] d (d.run [.create tmp, .write tmp content, .syncFile tmp]) ∧
      (d.run [.create tmp, .write tmp content, .syncFile tmp]).now[tmp]? = some ⟨content, true⟩ := by
  have hCreate : AgreesOff [tmp] d (d.run [.create tmp]) := agreesOff_insert d tmp _
  have hWrite : AgreesOff [tmp] d (d.run [.create tmp, .write tmp content]) :=
    hCreate.trans (agreesOff_insert _ tmp _)
  have hHeld : (d.run [.create tmp, .write tmp content]).now[tmp]? = some ⟨content, false⟩ := by
    simp [run, apply, change]
  have hSync : d.run [.create tmp, .write tmp content, .syncFile tmp] =
      (d.run [.create tmp, .write tmp content]).change
        ((d.run [.create tmp, .write tmp content]).now.insert tmp ⟨content, true⟩) := by
    change (d.run [.create tmp, .write tmp content]).apply (.syncFile tmp) = _
    rw [apply, hHeld]
  refine ⟨hCreate, hWrite, hSync ▸ hWrite.trans (agreesOff_insert _ tmp _), ?_⟩
  rw [hSync]
  simp [change]

/-- The renaming binds the name to all the bytes, and touches it and the temporary one only. -/
theorem run_renamed (d : Directory N B) (hApart : tmp ≠ name) (content : B) :
    AgreesOff [tmp, name] d
        (d.run [.create tmp, .write tmp content, .syncFile tmp, .rename tmp name]) ∧
      (d.run [.create tmp, .write tmp content, .syncFile tmp, .rename tmp name]).now[name]? =
        some ⟨content, true⟩ ∧
      ∀ files ∈ (d.run [.create tmp, .write tmp content, .syncFile tmp, .rename tmp name]).states,
        files[name]? = some ⟨content, true⟩ ∨ ∃ old ∈ d.states, files[name]? = old[name]? := by
  obtain ⟨-, -, hSync, hHeld⟩ := agreesOff_prepare d tmp content
  have hRun : d.run [.create tmp, .write tmp content, .syncFile tmp, .rename tmp name] =
      (d.run [.create tmp, .write tmp content, .syncFile tmp]).apply (.rename tmp name) := rfl
  rw [hRun]
  generalize d.run [.create tmp, .write tmp content, .syncFile tmp] = p at hSync hHeld
  have hRename : p.apply (.rename tmp name) =
      p.change ((p.now.erase tmp).insert name ⟨content, true⟩) := by
    rw [apply, hHeld]
  have hBound : ((p.now.erase tmp).insert name ⟨content, true⟩)[name]? = some ⟨content, true⟩ := by
    simp
  rw [hRename]
  refine ⟨?_, hBound, fun files hFiles => ?_⟩
  · refine (hSync.subset (by simp)).trans (agreesOff_change fun other hOther => ?_)
    simp only [List.mem_cons, List.not_mem_nil, or_false, not_or] at hOther
    rw [getElem?_insert_ite, if_neg hOther.2, getElem?_erase_ite, if_neg hOther.1]
  · rcases List.mem_cons.mp hFiles with rfl | hFiles
    · exact .inl hBound
    · exact .inr (hSync.states name (by simpa using hApart.symm) files hFiles)

/-- A write that was not cut short binds its name for good. -/
theorem run_atomicWrite (d : Directory N B) (hApart : tmp ≠ name) (content : B) :
    AgreesOff [tmp, name] d (d.run (atomicWrite tmp name content)) ∧
      (d.run (atomicWrite tmp name content)).past = [] ∧
      (d.run (atomicWrite tmp name content)).Keeps name content := by
  obtain ⟨hOff, hBound, -⟩ := run_renamed d hApart content
  refine ⟨hOff.trans (agreesOff_synced _ _), rfl, fun files hFiles => ?_⟩
  rw [List.mem_singleton.mp hFiles]
  exact hBound

/-- One that was cut before the renaming has touched the temporary file only. -/
theorem agreesOff_cut (d : Directory N B) (tmp name : N) (content : B) (part : B → B) {k : Nat}
    (hk : k ≤ 3) : AgreesOff [tmp] d (d.run (cutAt part k (atomicWrite tmp name content))) := by
  obtain ⟨hCreate, hWrite, hSync, -⟩ := agreesOff_prepare d tmp content
  match k with
  | 0 => exact .refl _ d
  | 1 => exact hCreate.trans (agreesOff_insert _ tmp _)
  | 2 => exact hWrite
  | 3 => exact hSync

/-- One that was has touched the temporary file only, or bound the name to all the bytes. -/
theorem cut_cases (d : Directory N B) (hApart : tmp ≠ name) (content : B) (part : B → B) (k : Nat) :
    AgreesOff [tmp] d (d.run (cutAt part k (atomicWrite tmp name content))) ∨
      AgreesOff [tmp, name] d (d.run (cutAt part k (atomicWrite tmp name content))) ∧
        ∀ files ∈ (d.run (cutAt part k (atomicWrite tmp name content))).states,
          files[name]? = some ⟨content, true⟩ ∨ ∃ old ∈ d.states, files[name]? = old[name]? := by
  match k with
  | 0 | 1 | 2 | 3 => exact .inl (agreesOff_cut d tmp name content part (by omega))
  | 4 =>
    obtain ⟨hOff, -, hBound⟩ := run_renamed d hApart content
    exact .inr ⟨hOff, hBound⟩
  | k + 5 =>
    obtain ⟨hOff, hPast, hKeeps⟩ := run_atomicWrite d hApart content
    rw [cutAt_of_length_le part (Nat.le_add_left 5 k)]
    exact .inr ⟨hOff, fun files hFiles => .inl (hKeeps files hFiles)⟩

theorem now_cut {n : N} (d : Directory N B) (hTmp : n ≠ tmp) (hName : n ≠ name) (hApart : tmp ≠ name)
    (part : B → B) (k : Nat) :
    (d.run (cutAt part k (atomicWrite tmp name content))).now[n]? = d.now[n]? := by
  rcases cut_cases d hApart content part k with hOff | ⟨hOff, -⟩
  · exact hOff.now n (by simpa using hTmp)
  · exact hOff.now n (by simpa using ⟨hTmp, hName⟩)

theorem Keeps.cut {n : N} {held : B} (h : d.Keeps n held) (hTmp : n ≠ tmp) (hName : n ≠ name)
    (hApart : tmp ≠ name) (part : B → B) (k : Nat) :
    (d.run (cutAt part k (atomicWrite tmp name content))).Keeps n held := by
  rcases cut_cases d hApart content part k with hOff | ⟨hOff, -⟩
  · exact h.agreesOff hOff (by simpa using hTmp)
  · exact h.agreesOff hOff (by simpa using ⟨hTmp, hName⟩)

theorem Only.cut {n : N} (h : d.Only n P) (hTmp : n ≠ tmp) (hWritten : n = name → P content)
    (hApart : tmp ≠ name) (part : B → B) (k : Nat) :
    (d.run (cutAt part k (atomicWrite tmp name content))).Only n P := by
  rcases cut_cases d hApart content part k with hOff | ⟨hOff, hBound⟩
  · exact h.agreesOff hOff (by simpa using hTmp)
  · by_cases hName : n = name
    · subst hName
      intro files hFiles file hFile
      rcases hBound files hFiles with hNew | ⟨old, hOld, hSame⟩
      · rw [hNew] at hFile
        cases hFile
        exact ⟨rfl, hWritten rfl⟩
      · exact h old hOld file (hSame ▸ hFile)
    · exact h.agreesOff hOff (by simpa using ⟨hTmp, hName⟩)

end Write

end Directory

end CrdtSync.Lib
