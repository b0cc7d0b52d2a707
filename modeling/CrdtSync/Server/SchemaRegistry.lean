import CrdtSync.Core.Ids
import Mathlib.Logic.Function.Basic
import Mathlib.Order.Basic

/-!
# The schema registry and its migration chains

An app's registered versions and the migration edge that reaches each. An op stored at
one version is served at another along the edges between them, up through any edge that
parses and down through back-compatible ones.
-/

namespace CrdtSync

namespace Server

/-- What the registry needs of the schema and migration languages and of the content hash. -/
structure SchemaText (μ : Type) where
  zones : Bytes → Option (List (Bytes × Bytes))
  migration : Bytes → Option μ
  backCompatible : μ → Bool
  contentHash : Nat → Bytes → Bytes → Bytes

/-- One version: its schema and the edge that reaches it. -/
structure Link where
  schema : Bytes
  migration : Bytes
  hash : Bytes
  zones : List (Bytes × Bytes)

/-- Every app's links, the first of them version `1`. -/
structure SchemaRegistry where
  chains : Bytes → List Link

inductive Registered
  | appended
  | unchanged

inductive RegisterError
  | gap (expected got : Nat)
  | outOfSequence (expected got : Nat)
  | hashMismatch (version : Nat)
  | unparseable (version : Nat)
  | zonesNotAppendOnly (version : Nat)

inductive Resolution
  | relay
  | enforcing (version : Nat) (schema : Bytes)
  | reject

inductive TranslateError
  | missingEdge (version : Nat)
  | badMigration (version : Nat)
  | unreachable

/-- A resolved path, and which way it is walked. -/
structure Chain (μ : Type) where
  edges : List μ
  up : Bool

namespace SchemaRegistry

def new : SchemaRegistry := ⟨fun _ => []⟩

def link (r : SchemaRegistry) (app : Bytes) (version : Nat) : Option Link :=
  if version = 0 then none else (r.chains app)[version - 1]?

def resolve (r : SchemaRegistry) (app : Bytes) (version : Nat) : Option Bytes :=
  (r.link app version).map Link.schema

def migration (r : SchemaRegistry) (app : Bytes) (version : Nat) : Option Bytes :=
  (r.link app version).map Link.migration

def headVersion (r : SchemaRegistry) (app : Bytes) : Option Nat :=
  if (r.chains app).length = 0 then none else some (r.chains app).length

/-- The tier a connection's declaration resolves to; version `0` adopts the head. -/
def resolveHandshake (r : SchemaRegistry) (app : Bytes) (version : Nat) : Resolution :=
  if app.isEmpty then .relay
  else
    match r.headVersion app with
    | none => .relay
    | some head =>
      let version := if version = 0 then head else version
      match r.resolve app version with
      | some schema => .enforcing version schema
      | none => .reject

variable {μ : Type}

/-- Append the next version, or retry the head. The migration's text is not read. -/
def register (text : SchemaText μ) (r : SchemaRegistry) (app : Bytes) (version : Nat)
    (schema migration : Bytes) : Except RegisterError Registered × SchemaRegistry :=
  let head := (r.chains app).length
  let expected := head + 1
  if version = expected then
    match text.zones schema with
    | none => (.error (.unparseable version), r)
    | some zones =>
      if (r.link app (version - 1)).all fun prev => zones.take prev.zones.length = prev.zones then
        let link : Link := ⟨schema, migration, text.contentHash version schema migration, zones⟩
        (.ok .appended, ⟨Function.update r.chains app (r.chains app ++ [link])⟩)
      else (.error (.zonesNotAppendOnly version), r)
  else if version = head ∧ head ≥ 1 then
    if (r.link app version).any fun link =>
        link.hash = text.contentHash version schema migration then (.ok .unchanged, r)
    else (.error (.hashMismatch version), r)
  else if version > expected then (.error (.gap expected version), r)
  else (.error (.outOfSequence expected version), r)

/-- The edges that reach the versions after one, up to a count of them. -/
def edgeLoop (text : SchemaText μ) (r : SchemaRegistry) (app : Bytes) :
    Nat → Nat → Except TranslateError (List μ)
  | 0, _ => .ok []
  | count + 1, version =>
    match r.migration app (version + 1) with
    | none => .error (.missingEdge (version + 1))
    | some bytes =>
      match text.migration bytes with
      | none => .error (.badMigration (version + 1))
      | some edge =>
        match edgeLoop text r app count (version + 1) with
        | .error e => .error e
        | .ok edges => .ok (edge :: edges)

def edgeSlice (text : SchemaText μ) (r : SchemaRegistry) (app : Bytes) (low high : Nat) :
    Except TranslateError (List μ) := edgeLoop text r app (high - low) low

def reachableDown (text : SchemaText μ) (edges : List μ) : Bool := edges.all text.backCompatible

def resolveChain (text : SchemaText μ) (r : SchemaRegistry) (app : Bytes) (source target : Nat) :
    Except TranslateError (Chain μ) :=
  if source = target then .ok ⟨[], true⟩
  else if source < target then
    match edgeSlice text r app source target with
    | .error e => .error e
    | .ok edges => .ok ⟨edges, true⟩
  else
    match edgeSlice text r app target source with
    | .error e => .error e
    | .ok edges => if reachableDown text edges then .ok ⟨edges, false⟩ else .error .unreachable

def reachable (text : SchemaText μ) (r : SchemaRegistry) (app : Bytes) (source target : Nat) :
    Except TranslateError Bool :=
  if target = source then .ok true
  else if target > source then
    match edgeSlice text r app source target with
    | .error e => .error e
    | .ok _ => .ok true
  else
    match edgeSlice text r app target source with
    | .error e => .error e
    | .ok edges => .ok (reachableDown text edges)

/-! ### Paths -/

variable {text : SchemaText μ} {r r' : SchemaRegistry} {app : Bytes}

theorem edgeLoop_add (m n version : Nat) :
    edgeLoop text r app (m + n) version =
      match edgeLoop text r app m version with
      | .error e => .error e
      | .ok first =>
        match edgeLoop text r app n (version + m) with
        | .error e => .error e
        | .ok second => .ok (first ++ second) := by
  induction m generalizing version with
  | zero =>
    rw [Nat.zero_add, Nat.add_zero, edgeLoop]
    dsimp only
    cases edgeLoop text r app n version <;> rfl
  | succ m ih =>
    have hNext : version + 1 + m = version + (m + 1) := by omega
    rw [Nat.succ_add, edgeLoop, edgeLoop, ih, hNext]
    cases r.migration app (version + 1) with
    | none => rfl
    | some bytes =>
      dsimp only
      cases text.migration bytes with
      | none => rfl
      | some edge =>
        dsimp only
        cases edgeLoop text r app m (version + 1) with
        | error e => rfl
        | ok first =>
          dsimp only
          cases edgeLoop text r app n (version + (m + 1)) <;> rfl

/-- A path resolves exactly when its two parts do, and is their concatenation. -/
theorem edgeSlice_eq_ok_iff {low mid high : Nat} (hLow : low ≤ mid) (hHigh : mid ≤ high)
    {edges : List μ} :
    edgeSlice text r app low high = .ok edges ↔
      ∃ first second, edgeSlice text r app low mid = .ok first ∧
        edgeSlice text r app mid high = .ok second ∧ edges = first ++ second := by
  have hLength : high - low = (mid - low) + (high - mid) := by omega
  have hMid : low + (mid - low) = mid := by omega
  unfold edgeSlice
  rw [hLength, edgeLoop_add, hMid]
  cases edgeLoop text r app (mid - low) low with
  | error e => simp
  | ok first =>
    dsimp only
    cases edgeLoop text r app (high - mid) mid with
    | error e => simp
    | ok second => simp [eq_comm]

def Resolves (text : SchemaText μ) (r : SchemaRegistry) (app : Bytes) (low high : Nat) : Prop :=
  ∃ edges, edgeSlice text r app low high = .ok edges

theorem Resolves.refl (version : Nat) : Resolves text r app version version :=
  ⟨[], by rw [edgeSlice, Nat.sub_self, edgeLoop]⟩

theorem Resolves.trans {low mid high : Nat} (hLow : low ≤ mid) (hHigh : mid ≤ high)
    (hFirst : Resolves text r app low mid) (hSecond : Resolves text r app mid high) :
    Resolves text r app low high := by
  obtain ⟨first, hFirst⟩ := hFirst
  obtain ⟨second, hSecond⟩ := hSecond
  exact ⟨first ++ second, (edgeSlice_eq_ok_iff hLow hHigh).mpr ⟨first, second, hFirst, hSecond, rfl⟩⟩

/-- A served path: any path up that resolves, and a path down over back-compatible edges. -/
def Reaches (text : SchemaText μ) (r : SchemaRegistry) (app : Bytes) (source target : Nat) : Prop :=
  reachable text r app source target = .ok true

theorem reaches_up_iff {source target : Nat} (h : source ≤ target) :
    Reaches text r app source target ↔ Resolves text r app source target := by
  unfold Reaches reachable
  obtain rfl | hLt := Nat.eq_or_lt_of_le h
  · rw [if_pos rfl]
    exact iff_of_true rfl (.refl _)
  · rw [if_neg (by omega), if_pos hLt, Resolves]
    cases edgeSlice text r app source target with
    | error e => simp
    | ok edges => simp

theorem reaches_down_iff {source target : Nat} (h : target < source) :
    Reaches text r app source target ↔
      ∃ edges, edgeSlice text r app target source = .ok edges ∧ reachableDown text edges = true := by
  unfold Reaches reachable
  rw [if_neg (by omega), if_neg (by omega)]
  cases edgeSlice text r app target source with
  | error e => simp
  | ok edges => simp

theorem Reaches.resolves_down {source target : Nat} (h : target ≤ source)
    (hReaches : Reaches text r app source target) : Resolves text r app target source := by
  obtain rfl | hLt := Nat.eq_or_lt_of_le h
  · exact .refl _
  · obtain ⟨edges, hEdges, -⟩ := (reaches_down_iff hLt).mp hReaches
    exact ⟨edges, hEdges⟩

/-- A chain resolves exactly where admission says the version is reached. -/
theorem exists_resolveChain_iff {source target : Nat} :
    (∃ chain, resolveChain text r app source target = .ok chain) ↔
      Reaches text r app source target := by
  obtain rfl | hLt | hGt : source = target ∨ source < target ∨ target < source := by omega
  · refine iff_of_true ?_ ((reaches_up_iff (Nat.le_refl _)).mpr (.refl _))
    exact ⟨⟨[], true⟩, by rw [resolveChain, if_pos rfl]⟩
  · rw [reaches_up_iff (Nat.le_of_lt hLt), resolveChain, if_neg (by omega), if_pos hLt, Resolves]
    cases edgeSlice text r app source target with
    | error e => simp
    | ok edges => simp
  · rw [reaches_down_iff hGt, resolveChain, if_neg (by omega), if_neg (by omega)]
    cases edgeSlice text r app target source with
    | error e => simp
    | ok edges =>
      dsimp only
      cases hDown : reachableDown text edges with
      | true => simp [hDown]
      | false => simp [hDown]

theorem Reaches.of_resolves {version high target : Nat} (hVersion : version ≤ high)
    (hUp : Resolves text r app version high) (hReaches : Reaches text r app high target) :
    Reaches text r app version target := by
  obtain hAbove | hBelow := le_or_gt high target
  · have hRest := (reaches_up_iff hAbove).mp hReaches
    exact (reaches_up_iff (Nat.le_trans hVersion hAbove)).mpr (hUp.trans hVersion hAbove hRest)
  · obtain ⟨edges, hEdges, hDown⟩ := (reaches_down_iff hBelow).mp hReaches
    obtain hUnder | hOver := le_or_gt version target
    · obtain ⟨up, hUp⟩ := hUp
      obtain ⟨first, -, hFirst, -⟩ := (edgeSlice_eq_ok_iff hUnder (Nat.le_of_lt hBelow)).mp hUp
      exact (reaches_up_iff hUnder).mpr ⟨first, hFirst⟩
    · obtain ⟨first, second, hFirst, -, rfl⟩ :=
        (edgeSlice_eq_ok_iff (Nat.le_of_lt hOver) hVersion).mp hEdges
      rw [reachableDown, List.all_append, Bool.and_eq_true_iff] at hDown
      exact (reaches_down_iff hOver).mpr ⟨first, hFirst, hDown.1⟩

/-! ### Registration -/

/-- Every registered edge stays as it is. -/
def Extends (r r' : SchemaRegistry) : Prop :=
  ∀ app version bytes, r.migration app version = some bytes → r'.migration app version = some bytes

theorem register_extends (text : SchemaText μ) (r : SchemaRegistry) (app : Bytes) (version : Nat)
    (schema migration : Bytes) : r.Extends (register text r app version schema migration).2 := by
  have hSame : r.Extends r := fun _ _ _ h => h
  unfold register
  dsimp only
  split
  · split
    · exact hSame
    · split
      · intro other at_ bytes h
        unfold SchemaRegistry.migration link at h ⊢
        by_cases hOther : other = app
        · subst hOther
          split at h
          · cases h
          next hPositive =>
            rw [if_neg hPositive]
            dsimp only
            rw [Function.update_self]
            obtain ⟨link, hLink, hBytes⟩ := Option.map_eq_some_iff.mp h
            rw [List.getElem?_append_left (List.getElem?_eq_some_iff.mp hLink).1, hLink,
              Option.map_some, hBytes]
        · dsimp only
          rw [Function.update_of_ne hOther]
          exact h
      · exact hSame
  · split
    · split <;> exact hSame
    · split <;> exact hSame

theorem Extends.edgeLoop (h : r.Extends r') {count version : Nat} {edges : List μ}
    (hEdges : edgeLoop text r app count version = .ok edges) :
    edgeLoop text r' app count version = .ok edges := by
  induction count generalizing version edges with
  | zero => exact hEdges
  | succ count ih =>
    rw [SchemaRegistry.edgeLoop] at hEdges ⊢
    cases hBytes : r.migration app (version + 1) with
    | none =>
      rw [hBytes] at hEdges
      cases hEdges
    | some bytes =>
      rw [hBytes] at hEdges
      rw [h app (version + 1) bytes hBytes]
      dsimp only at hEdges ⊢
      cases hEdge : text.migration bytes with
      | none =>
        rw [hEdge] at hEdges
        cases hEdges
      | some edge =>
        rw [hEdge] at hEdges
        dsimp only at hEdges ⊢
        cases hRest : SchemaRegistry.edgeLoop text r app count (version + 1) with
        | error e =>
          rw [hRest] at hEdges
          cases hEdges
        | ok rest =>
          rw [hRest] at hEdges
          rw [ih hRest]
          exact hEdges

theorem Extends.resolves (h : r.Extends r') {low high : Nat} (hResolves : Resolves text r app low high) :
    Resolves text r' app low high := by
  obtain ⟨edges, hEdges⟩ := hResolves
  exact ⟨edges, h.edgeLoop hEdges⟩

theorem Extends.reaches (h : r.Extends r') {source target : Nat}
    (hReaches : Reaches text r app source target) : Reaches text r' app source target := by
  obtain hUp | hDown := le_or_gt source target
  · exact (reaches_up_iff hUp).mpr (h.resolves ((reaches_up_iff hUp).mp hReaches))
  · obtain ⟨edges, hEdges, hAll⟩ := (reaches_down_iff hDown).mp hReaches
    exact (reaches_down_iff hDown).mpr ⟨edges, h.edgeLoop hEdges, hAll⟩

end SchemaRegistry

end Server

end CrdtSync
